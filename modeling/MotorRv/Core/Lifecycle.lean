import MotorRv.Core.Executions
import MotorRv.Core.TradeLists

/-!
# The lifetime of a trade

The state of a trade follows `kEdges`: from its execution to its closing, each change is one edge of
the graph, under the trigger of the event that made it. Rows move when the table is compacted, so a
trade is followed by its id; a walk that ends visits a row once, so no event moves a trade twice.

The argument has two levels. On the table, `RowsStep` says what an event does to the rows: each goes
along one edge at most (`Moved`), one row is added, or the closed ones are removed. On a single
trade, found by its id, this is `TradeStep`: the id is unique, so the row before and the row after
are the same trade wherever they stand.

`edges` collects the changes of a trade along a session, and `Lived` says that they are complete
lifetimes, one after the other, and the one it is in. `lived_session` is the induction. A reload
changes no row, so it adds no edge.
-/

namespace MotorRv

open Lib PartitionState Apply

/-- The graph of the trade states. -/
def kEdges : List (TradeState × TradeTrigger × TradeState) :=
  [(.none, .execute, .executed),
    (.executed, .allocate, .allocated),
    (.allocated, .net, .netted),
    (.netted, .settle, .settled),
    (.netted, .fail, .deliveryFailed),
    (.deliveryFailed, .buyIn, .netted),
    (.deliveryFailed, .close, .closed),
    (.settled, .close, .closed)]

/-- The table has the edges of the list. -/
theorem mem_kEdges_iff (a b : TradeState) (g : TradeTrigger) :
    (a, g, b) ∈ kEdges ↔ nextState a g = b ∧ b ≠ .none := by
  constructor
  · have hall : ∀ x ∈ kEdges, nextState x.1 x.2.1 = x.2.2 ∧ x.2.2 ≠ .none := by decide
    exact hall (a, g, b)
  · rintro ⟨rfl, hnone⟩
    cases a <;> cases g <;> first | decide | exact absurd rfl hnone

/-- Only an execution starts a lifetime, and only a closing ends one. -/
theorem live_of_mem_kEdges {a b : TradeState} {g : TradeTrigger} (h : (a, g, b) ∈ kEdges)
    (hexec : g ≠ .execute) (hclose : g ≠ .close) : a ≠ .none ∧ b ≠ .closed := by
  have hall : ∀ x ∈ kEdges, x.2.1 ≠ .execute → x.2.1 ≠ .close → x.1 ≠ .none ∧ x.2.2 ≠ .closed := by
    decide
  exact hall (a, g, b) h hexec hclose

/-- What an event does to the trades it is about. -/
def Event.trigger : Event → Option TradeTrigger
  | .dayOpened _ => some .close
  | .tradeExecuted _ => some .execute
  | .tradeAllocated _ => some .allocate
  | .batchNetted _ => some .net
  | .tradeSettled e => (SettleOutcome.ofCode e.outcome).map triggerOf
  | _ => none

/-- A row without its owner and its link. -/
def TradeRow.stated (r : TradeRow) : TradeRow := { r with account := 0, next := none }

/-! ### One event -/

/-- A row of a trade, if an event moves it, follows an edge that leaves a live trade. -/
structure Moved (st : Status) (x : Option Event) (r r' : TradeRow) : Prop where
  fixed : r'.fixed = r.fixed
  state : r'.state = r.state ∨ classify st ≠ .rejected ∧ ∃ y g a b, x = some y ∧
    y.trigger = some g ∧
    (a, g, b) ∈ kEdges ∧ a ≠ .none ∧ b ≠ .closed ∧ r.state = a.code ∧ r'.state = b.code

/-- What an event does to the table of trades. -/
inductive RowsStep (s s' : PartitionState) (st : Status) : Option Event → Prop
  | moved {x} (hrows : List.Forall₂ (Moved st x) s.trades s'.trades) : RowsStep s s' st x
  | executed {e r} (hst : classify st ≠ .rejected) (hnew : e.tradeId ∉ s.tradeKeys)
      (hid : r.tradeId = e.tradeId)
      (hstate : r.state = TradeState.executed.code) (hrows : s'.trades = s.trades ++ [r]) :
      RowsStep s s' st (some (.tradeExecuted e))
  | opened {e} (hok : st.isOk = true) (hwin : s'.window = newWindow e)
      (hrows : s'.trades.map TradeRow.unlinked =
        (s.trades.filter fun t => !closes (newWindow e) t).map TradeRow.unlinked) :
      RowsStep s s' st (some (.dayOpened e))

section Rows

variable {st : Status} {x : Option Event} {rows rows' : List TradeRow} {r r' r'' : TradeRow}

theorem Moved.refl (r : TradeRow) : Moved st x r r := ⟨rfl, .inl rfl⟩

/-- Rows that do not change have moved by no step. -/
theorem Moved.rows_refl (rows : List TradeRow) : List.Forall₂ (Moved st x) rows rows :=
  List.forall₂_same.mpr fun r _ => .refl r

/-- What a walk does to a row that it visits: a covered row follows its edge, if it has one. -/
def stepped (covered : TradeRow → Bool) (g : TradeTrigger) (r : TradeRow) : TradeRow :=
  if covered r then
    match TradeState.ofCode r.state with
    | some a => if nextState a g = .none then r else { r with state := (nextState a g).code }
    | none => r
  else r

/-- A trade that is advanced stays, or goes along an edge. -/
theorem stepped_cases (covered : TradeRow → Bool) (g : TradeTrigger) (r : TradeRow) :
    stepped covered g r = r ∨ ∃ a, r.state = a.code ∧ nextState a g ≠ .none ∧
      stepped covered g r = { r with state := (nextState a g).code } := by
  unfold stepped
  split_ifs
  · split
    · next a ha =>
      split_ifs with hnone
      · exact .inl rfl
      · exact .inr ⟨a, (TradeState.code_of_ofCode ha).symm, hnone, rfl⟩
    · exact .inl rfl
  · exact .inl rfl

/-- A walk visits the rows of its list, no row twice. -/
theorem advance_visits {covered : TradeRow → Bool} {g : TradeTrigger} : ∀ {fuel : ℕ}
    {l : Option ℕ} {trades rows : List TradeRow} {n : ℕ},
    advance covered g fuel l trades = .ok (n, rows) → ∃ is, Chain (linkIn trades) l is ∧
      ∀ i, rows[i]? = (trades[i]?).map fun r => if i ∈ is then stepped covered g r else r := by
  intro fuel
  induction fuel with
  | zero =>
    intro l trades rows n h
    cases l with
    | none =>
      obtain ⟨-, rfl⟩ := Prod.mk.inj (Except.ok.inj h)
      exact ⟨[], .nil, fun i => by simp⟩
    | some t => cases h
  | succ fuel ih =>
    intro l trades rows n h
    cases l with
    | none =>
      obtain ⟨-, rfl⟩ := Prod.mk.inj (Except.ok.inj h)
      exact ⟨[], .nil, fun i => by simp⟩
    | some t =>
      simp only [advance, bind, except_bind_eq_ok] at h
      obtain ⟨q, hq, h⟩ := h
      replace hq := rowAt_eq_ok.mp hq
      -- the row stays, and the walk goes on
      have hskip : ∀ {n}, advance covered g fuel q.next trades = .ok (n, rows) →
          stepped covered g q = q → ∃ is, Chain (linkIn trades) (some t) is ∧
            ∀ i, rows[i]? = (trades[i]?).map fun r =>
              if i ∈ is then stepped covered g r else r := by
        intro n h hstay
        obtain ⟨is, hchain, hrows⟩ := ih h
        refine ⟨t :: is, .cons (linkIn_eq hq) hchain, fun i => ?_⟩
        rw [hrows i]
        rcases eq_or_ne i t with rfl | hi
        · simp [hq, hstay]
        · simp [hi]
      split_ifs at h with hc
      · simp only [except_bind_eq_ok] at h
        obtain ⟨nx, hnx, h⟩ := h
        obtain ⟨a, ha, rfl⟩ := nextOf_eq_ok.mp hnx
        split_ifs at h with hnone
        · exact hskip h (by simp [stepped, hc, ha, hnone])
        · simp only [except_bind_eq_ok] at h
          obtain ⟨⟨m, rows'⟩, hrec, h⟩ := h
          obtain ⟨-, rfl⟩ := Prod.mk.inj (Except.ok.inj h)
          obtain ⟨is, hchain, hrows⟩ := ih hrec
          -- the state of a row is no link
          have hlinks : linkIn (trades.set t { q with state := (nextState a g).code }) =
              linkIn trades := by
            have hmap : (trades.set t { q with state := (nextState a g).code }).map (·.next) =
                trades.map (·.next) := map_set_of_eq hq rfl
            unfold linkIn
            rw [hmap]
          rw [hlinks] at hchain
          have hcons : Chain (linkIn trades) (some t) (t :: is) := .cons (linkIn_eq hq) hchain
          refine ⟨t :: is, hcons, fun i => ?_⟩
          rw [hrows i]
          rcases eq_or_ne i t with rfl | hi
          · have hlt := (List.getElem?_eq_some_iff.mp hq).1
            have hout : i ∉ is := (List.nodup_cons.mp hcons.nodup).1
            have hstep : stepped covered g q = { q with state := (nextState a g).code } := by
              simp [stepped, hc, ha, hnone]
            rw [List.getElem?_set_self hlt, hq, Option.map_some, Option.map_some, if_neg hout,
              if_pos List.mem_cons_self, hstep]
          · rw [List.getElem?_set_ne (Ne.symm hi)]
            simp [hi]
      · exact hskip h (by simp [stepped, hc])

/-- A step does not depend on the account or the link of a trade. -/
theorem Moved.congr (h : Moved st x r r') (hsame : r''.stated = r'.stated) : Moved st x r r'' := by
  have hfixed : r''.stated.fixed = r'.stated.fixed := congrArg TradeRow.fixed hsame
  have hstate : r''.state = r'.state := congrArg (fun q => q.state) hsame
  exact ⟨hfixed.trans h.fixed, by rw [hstate]; exact h.state⟩

/-- Owners and links do not count. -/
theorem moved_of_stated (h : List.Forall₂ (Moved st x) rows rows') : ∀ {rows'' : List TradeRow},
    rows''.map TradeRow.stated = rows'.map TradeRow.stated →
      List.Forall₂ (Moved st x) rows rows'' := by
  induction h with
  | nil =>
    intro rows'' hmap
    rw [List.map_eq_nil_iff.mp hmap]
    exact .nil
  | cons hr _ ih =>
    intro rows'' hmap
    cases rows'' with
    | nil => cases hmap
    | cons r'' rows'' =>
      obtain ⟨hhead, htail⟩ := List.cons.inj hmap
      exact .cons (hr.congr hhead) (ih htail)

/-- One row moves by a step, and the others stay. -/
theorem moved_set {t : ℕ} (hr : rows[t]? = some r) (hm : Moved st x r r') :
    List.Forall₂ (Moved st x) rows (rows.set t r') := by
  induction rows generalizing t with
  | nil => cases hr
  | cons q rows ih =>
    cases t with
    | zero =>
      obtain rfl := Option.some.inj hr
      exact .cons hm (Moved.rows_refl rows)
    | succ t => exact .cons (.refl q) (ih hr)

/-- A row whose state is set back has not moved. -/
theorem moved_unset {t : ℕ} {b : UInt8} (hr : rows[t]? = some r) (hr' : rows'[t]? = some r')
    (hstate : r'.state = r.state)
    (h : List.Forall₂ (Moved st x) rows (rows'.set t { r' with state := b })) :
    List.Forall₂ (Moved st x) rows rows' := by
  induction rows' generalizing rows t with
  | nil => cases hr'
  | cons q' rows' ih =>
    cases t with
    | zero =>
      obtain rfl := Option.some.inj hr'
      cases h with
      | cons hm hrest =>
        obtain rfl := Option.some.inj hr
        exact .cons ⟨hm.fixed, .inl hstate⟩ hrest
    | succ t =>
      cases h with
      | cons hm hrest => exact .cons hm (ih hr hr' hrest)

/-- A walk under the trigger of the event. -/
theorem moved_of_advance {covered : TradeRow → Bool} {g : TradeTrigger} {l : Option ℕ} {n fuel : ℕ}
    {y : Event} (h : advance covered g fuel l rows = .ok (n, rows')) (hg : y.trigger = some g)
    (hst : classify st ≠ .rejected) (hexec : g ≠ .execute) (hclose : g ≠ .close) :
    List.Forall₂ (Moved st (some y)) rows rows' := by
  have hlen : rows'.length = rows.length := by
    simpa only [List.length_map] using congrArg List.length (advance_fixed h)
  obtain ⟨is, -, hrows⟩ := advance_visits h
  refine List.forall₂_iff_get.mpr ⟨hlen.symm, fun i h1 h2 => ?_⟩
  have hrow := hrows i
  rw [List.getElem?_eq_getElem h1, List.getElem?_eq_getElem h2, Option.map_some,
    Option.some.injEq] at hrow
  have hcases : rows'[i] = rows[i] ∨ ∃ a, rows[i].state = a.code ∧ nextState a g ≠ .none ∧
      rows'[i] = { rows[i] with state := (nextState a g).code } := by
    rw [hrow]
    split_ifs
    · exact stepped_cases covered g rows[i]
    · exact .inl rfl
  obtain hsame | ⟨a, ha, hnone, hnext⟩ := hcases
  · simp only [List.get_eq_getElem, hsame]
    exact .refl _
  · have hedge : (a, g, nextState a g) ∈ kEdges := (mem_kEdges_iff _ _ _).mpr ⟨rfl, hnone⟩
    obtain ⟨hborn, hclosed⟩ := live_of_mem_kEdges hedge hexec hclose
    simp only [List.get_eq_getElem, hnext]
    exact ⟨rfl, .inr ⟨hst, y, g, a, nextState a g, rfl, hg, hedge, hborn, hclosed, ha, rfl⟩⟩

end Rows

/-! ### Every event -/

variable {s s' : PartitionState}

/-- By cases on the effect: every row of a trade goes along at most one edge. -/
theorem Effect.rowsStep {x : Event} (h : Effect s x s') {st : Status}
    (hst : classify st ≠ .rejected)
    (hok : st.isOk = true ∨ x.moves = true) : RowsStep s s' st (some x) := by
  have halloc : ∀ {e : TradeAllocated} {r : TradeRow}, r.state = TradeState.executed.code →
      Moved st (some (.tradeAllocated e)) r { r with state := TradeState.allocated.code } :=
    fun hstate => ⟨rfl, .inr ⟨hst, _, .allocate, .executed, .allocated, rfl, rfl, by decide, nofun,
      nofun, hstate, rfl⟩⟩
  cases h with
  | dayOpened _ _ h =>
    have hopen := opened_of_openDay h
    exact .opened (hok.resolve_right Bool.false_ne_true) hopen.window hopen.trades
  | tradeExecuted _ _ hnew => exact .executed hst hnew rfl rfl rfl
  | allocatedInPlace hI _ hr hstate => exact .moved (moved_set hr (halloc hstate))
  | @allocated e s₁ s₂ r r' k c₁ c₁' c₂ c₂' a₁ a₁' a₂ a₂' t de para _ _ hI _ hr hstate _ _ _ _ _ _ _
      _ _ _ _ _ _ _ _ _ _ hlink hr' =>
    obtain ⟨-, ⟨q, hq, hrows⟩, -⟩ := relinkTrade_rows hlink
    obtain rfl := Option.some.inj (hr.symm.trans (hI.trades ▸ hq))
    have hlt := (List.getElem?_eq_some_iff.mp hr).1
    -- moving the trade to another list changes its account and links, not its state
    have hstated : s₂.trades.map TradeRow.stated = s.trades.map TradeRow.stated := by
      have h1 : s₂.trades.map TradeRow.stated =
          (s₁.trades.set t { r with account := para }).map TradeRow.stated :=
        map_of_unlinkedTrades TradeRow.stated (fun _ => rfl) hrows
      rw [h1, hI.trades]
      exact map_set_of_eq hr rfl
    have hrow : r'.stated = r.stated := by
      have hi := congrArg (fun l => l[t]?) hstated
      simp only [List.getElem?_map, hr, hr', Option.map_some, Option.some.injEq] at hi
      exact hi
    refine .moved (moved_of_stated (moved_set hr (halloc hstate)) ?_)
    have hset : ({ r' with state := TradeState.allocated.code } : TradeRow).stated =
        ({ r with state := TradeState.allocated.code } : TradeRow).stated :=
      congrArg (fun q : TradeRow => { q with state := TradeState.allocated.code }) hrow
    rw [List.map_set, List.map_set, hstated, hset]
  | batchNetted hI _ _ _ _ hadv hlog =>
    refine .moved ?_
    rw [hlog.trades]
    exact moved_of_advance hadv rfl hst nofun nofun
  | @tradeSettled e s₁ acct inst pos c a outcome c' a' n rows s' hI _ hout _ hadv hlog =>
    refine .moved ?_
    rw [hlog.trades]
    refine moved_of_advance hadv ?_ hst ?_ ?_
    · rw [Event.trigger, hout, Option.map_some]
    · cases outcome <;> nofun
    · cases outcome <;> nofun
  | corporateActionApplied hI _ _ _ _ _ _ _ _ _ _ _ _ _ hlog =>
    refine .moved ?_
    rw [hlog.trades]
    exact hI.trades ▸ Moved.rows_refl _
  | dividendPaid hI | closingPriceSet hI => exact .moved (hI.trades ▸ Moved.rows_refl _)
  | custodyReconciled =>
    obtain ⟨xs, n, d, f, hrest⟩ := recordDivergences_rest _ _ s
    rw [hrest]
    exact .moved (Moved.rows_refl _)
  | eodMarked => exact .moved (Moved.rows_refl _)

/-- The trade that an allocation finds is one that was executed. -/
theorem Effect.allocates {e : TradeAllocated} (h : Effect s (.tradeAllocated e) s') {t : ℕ}
    (ht : s.tradeIndex.find e.tradeId = some t) :
    ∃ r, s.trades[t]? = some r ∧ r.state = TradeState.executed.code := by
  cases h with
  | allocatedInPlace _ ht' hr hstate | allocated _ ht' hr hstate =>
    obtain rfl := Option.some.inj (ht.symm.trans ht')
    exact ⟨_, hr, hstate⟩

/-- An event that ends without effect moves rows only where it stops the partition. -/
theorem Ended.rowsStep {ev : EventView} {st : Status} (h : Ended s ev st s') :
    RowsStep s s' st (LogRecord.event ev) := by
  cases h with
  | turned hkept => exact .moved (hkept.trades ▸ Moved.rows_refl _)
  | executedBefore | diverged => exact .moved (Moved.rows_refl _)
  | actionBefore _ hI | incomeBefore _ hI => exact .moved (hI.trades ▸ Moved.rows_refl _)
  | refused _ hI => exact .moved (hI.trades ▸ Moved.rows_refl _)
  | unpublished hev hmoves heff | corrupt hev hmoves heff =>
    exact hev ▸ heff.rowsStep nofun (.inr hmoves)
  | @corruptMove e _ t r d hev heff hrow hr _ hstate =>
    obtain ⟨q, hq, hqstate⟩ := heff.allocates hrow
    cases @Effect.rowsStep _ _ _ heff (.fail .stateCorrupt d) nofun (.inr rfl) with
    | moved hrows =>
      -- the move was made, but the trade was not advanced
      rw [hev]
      exact .moved (moved_unset hq hr (hstate.trans hqstate.symm) hrows)

/-- What an event does to the table of trades, by rows. -/
theorem rowsStep_apply (hs : s.Sound) {o : Option Outbox} {ev : EventView} {st : Status}
    {e : Engine} (h : apply ⟨s, o⟩ ev = .ok (st, e)) : RowsStep s e.s st (LogRecord.event ev) := by
  obtain ⟨s', hs', hcases⟩ := apply_cases hs h
  have hstep : RowsStep s s' st (LogRecord.event ev) := by
    obtain ⟨rfl, x, hx, heff⟩ | hend := hcases
    · exact hx ▸ heff.rowsStep nofun (.inl rfl)
    · exact hend.rowsStep
  rw [hs']
  generalize LogRecord.event ev = x at hstep
  cases hstep with
  | moved hrows => exact .moved hrows
  | executed hst hnew hid hstate hrows => exact .executed hst hnew hid hstate hrows
  | opened hok hwin hrows => exact .opened hok hwin hrows

/-! ### One trade -/

/-- What an event does to the trade with an id. -/
inductive TradeStep (st : Status) (x : Option Event) (w : SettlementWindow) (id : UInt64) :
    Option TradeRow → Option TradeRow → Prop
  | absent : TradeStep st x w id none none
  | born {e r} (hst : classify st ≠ .rejected) (hx : x = some (.tradeExecuted e))
      (hid : e.tradeId = id) (hstate : r.state = TradeState.executed.code) :
      TradeStep st x w id none (some r)
  | moved {r r'} (h : Moved st x r r') : TradeStep st x w id (some r) (some r')
  | closed {e r} (hok : st.isOk = true) (hx : x = some (.dayOpened e))
      (hstate : r.state = TradeState.settled.code) (hout : w.slotOf r.settlementDate = none) :
      TradeStep st x w id (some r) none

/-- Rows keep their ids, so what is found before is found after. -/
theorem find?_of_moved {st : Status} {x : Option Event} {rows rows' : List TradeRow}
    (h : List.Forall₂ (Moved st x) rows rows') (w : SettlementWindow) (id : UInt64) :
    TradeStep st x w id (rows.find? fun r => decide (r.tradeId = id))
      (rows'.find? fun r => decide (r.tradeId = id)) := by
  induction h with
  | nil => exact .absent
  | @cons r r' rows rows' hm _ ih =>
    have hid : r'.tradeId = r.tradeId := congrArg (fun q => q.tradeId) hm.fixed
    rw [List.find?_cons, List.find?_cons, hid]
    cases decide (r.tradeId = id) with
    | true => exact .moved hm
    | false => exact ih

/-- Of what is filtered, a row that is the only one of its kind is found if it stays. -/
theorem find?_filter_of_unique {α : Type*} {p q : α → Bool} {l : List α}
    (huniq : ∀ x ∈ l, ∀ y ∈ l, p x = true → p y = true → x = y) :
    (l.filter q).find? p = (l.find? p).filter q := by
  rcases hx : l.find? p with _ | x
  · refine List.find?_eq_none.mpr fun y hy => ?_
    exact List.find?_eq_none.mp hx y (List.mem_of_mem_filter hy)
  · have hmem := List.mem_of_find?_eq_some hx
    have hpx : p x = true := List.find?_some hx
    rcases hy : (l.filter q).find? p with _ | y
    · by_contra hne
      have hq : q x = true := by
        by_contra hq
        simp [Option.filter, hq] at hne
      exact List.find?_eq_none.mp hy x (List.mem_filter.mpr ⟨hmem, hq⟩) hpx
    · have hmem' := List.mem_filter.mp (List.mem_of_find?_eq_some hy)
      obtain rfl := huniq x hmem y hmem'.1 hpx (List.find?_some hy)
      simp [Option.filter, hmem'.2]

/-- What happens to the rows, told of one trade id. -/
theorem tradeStep_of_rowsStep (hs : s.Sound) {st : Status} {x : Option Event}
    (h : RowsStep s s' st x) (id : UInt64) :
    TradeStep st x s'.window id (s.tradeOf id) (s'.tradeOf id) := by
  cases h with
  | moved hrows => exact find?_of_moved hrows _ id
  | @executed e r hst hnew hid hstate hrows =>
    unfold tradeOf
    rw [hrows, List.find?_append]
    rcases hf : s.trades.find? fun r => decide (r.tradeId = id) with _ | q
    · rw [hf, Option.none_or, List.find?_singleton]
      split_ifs with hrid
      · exact .born hst rfl (hid.symm.trans (of_decide_eq_true hrid)) hstate
      · exact .absent
    · rw [hf, Option.some_or]
      exact .moved (.refl q)
  | @opened e hok hwin hrows =>
    -- trade ids are unique, so the filter drops the row with this id or none
    have huniq : ∀ r ∈ s.trades, ∀ q ∈ s.trades, decide (r.tradeId = id) = true →
        decide (q.tradeId = id) = true → r = q := by
      intro r hr q hq hrid hqid
      refine List.inj_on_of_nodup_map hs.trades.index.nodup hr hq ?_
      rw [of_decide_eq_true hrid, of_decide_eq_true hqid]
    have hkept : List.Forall₂ (Moved st (some (.dayOpened e)))
        (s.trades.filter fun t => !closes (newWindow e) t) s'.trades :=
      moved_of_stated (Moved.rows_refl _)
        (map_of_unlinkedTrades TradeRow.stated (fun _ => rfl) hrows)
    have hstep := find?_of_moved hkept s'.window id
    rw [find?_filter_of_unique huniq] at hstep
    unfold tradeOf
    rcases hf : s.trades.find? fun r => decide (r.tradeId = id) with _ | r
    · rwa [hf] at hstep ⊢
    · rw [hf] at hstep ⊢
      cases hclose : closes (newWindow e) r with
      | false =>
        rwa [Option.filter, hclose] at hstep
      | true =>
        rw [Option.filter, hclose] at hstep
        simp only [closes, Bool.and_eq_true, decide_eq_true_eq, Option.isNone_iff_eq_none] at hclose
        rw [← hwin] at hclose
        cases hgone : s'.trades.find? fun r => decide (r.tradeId = id) with
        | none => exact .closed hok rfl hclose.1 hclose.2
        | some q =>
          rw [hgone] at hstep
          cases hstep with
          | born _ hx => cases hx

/-! ### Runs -/

namespace PartitionState

/-- The state of a trade; a trade that is not in the table has none. -/
def stateOf (s : PartitionState) (id : UInt64) : TradeState :=
  ((s.tradeOf id).bind fun r => TradeState.ofCode r.state).getD .none

end PartitionState

/-- A change of the state of a trade, under the trigger of an event. -/
abbrev TradeEdge := TradeState × Option TradeTrigger × TradeState

/-- What an event changed of the state of a trade, if it did; a trade that is gone is closed. -/
def Step.edge (id : UInt64) (x : Step) : Option TradeEdge :=
  if x.before.stateOf id = x.after.stateOf id then none
  else
    some (x.before.stateOf id, (LogRecord.event x.ev).bind Event.trigger,
      if x.after.stateOf id = .none then .closed else x.after.stateOf id)

/-- The changes of the state of a trade, in order. -/
def edges (id : UInt64) (steps : List Step) : List TradeEdge := steps.filterMap (Step.edge id)

/-- A lifetime: a path in `kEdges` from the execution on, and the state it leads to. -/
inductive Lifetime : List TradeEdge → TradeState → Prop
  | born : Lifetime [(.none, some .execute, .executed)] .executed
  | step {es a g b} (h : Lifetime es a) (hedge : (a, g, b) ∈ kEdges) :
      Lifetime (es ++ [(a, some g, b)]) b

/-- The changes of a trade are lifetimes that ended, and the one it is in if it lives. -/
def Lived (id : UInt64) (steps : List Step) (s : PartitionState) : Prop :=
  ∃ (past : List (List TradeEdge)) (now : List TradeEdge), edges id steps = past.flatten ++ now ∧
    (∀ es ∈ past, Lifetime es .closed) ∧
    match s.tradeOf id with
    | none => now = []
    | some r => ∃ a, r.state = a.code ∧ a ≠ .none ∧ a ≠ .closed ∧ Lifetime now a

/-- A trade without a row has no state. -/
theorem stateOf_of_none {id : UInt64} (h : s.tradeOf id = none) : s.stateOf id = .none := by
  rw [stateOf, h]
  rfl

/-- The state of a trade is the one of its row. -/
theorem stateOf_of_some {id : UInt64} {r : TradeRow} {a : TradeState} (h : s.tradeOf id = some r)
    (ha : r.state = a.code) : s.stateOf id = a := by
  rw [stateOf, h, Option.bind_some, ha, TradeState.ofCode_code]
  rfl

/-- An edge leads to another state, and never to none. -/
theorem ne_of_mem_kEdges {a b : TradeState} {g : TradeTrigger} (h : (a, g, b) ∈ kEdges) :
    a ≠ b ∧ b ≠ .none := by
  have hall : ∀ x ∈ kEdges, x.1 ≠ x.2.2 ∧ x.2.2 ≠ .none := by decide
  exact hall (a, g, b) h

/-- A state can be told from its code. -/
theorem TradeState.code_injective : Function.Injective TradeState.code := by
  intro a b h
  have := congrArg TradeState.ofCode h
  rwa [ofCode_code, ofCode_code, Option.some.injEq] at this

/-- The edges of one more step. -/
theorem edges_snoc (id : UInt64) (steps : List Step) (x : Step) :
    edges id (steps ++ [x]) = edges id steps ++ (Step.edge id x).toList := by
  rw [edges, List.filterMap_append]
  cases h : Step.edge id x with
  | none => rw [List.filterMap_cons_none h]; rfl
  | some y => rw [List.filterMap_cons_some h]; rfl

/-- **One step.** An event takes the lifetime of a trade along an edge, or leaves it. -/
theorem Lived.step {id : UInt64} {steps : List Step} (h : Lived id steps s) {ev : EventView}
    {st : Status} (hstep : TradeStep st (LogRecord.event ev) s'.window id (s.tradeOf id)
      (s'.tradeOf id)) : Lived id (steps ++ [⟨s, ev, st, s'⟩]) s' := by
  obtain ⟨past, now, hedges, hpast, hnow⟩ := h
  rw [Lived, edges_snoc, hedges]
  unfold Step.edge
  generalize hb : s.tradeOf id = before at hstep hnow
  generalize ha : s'.tradeOf id = after at hstep
  cases hstep with
  | absent =>
    rw [stateOf_of_none hb, stateOf_of_none ha, if_pos rfl]
    exact ⟨past, now, List.append_nil _, hpast, hnow⟩
  | born hst hx hid hstate =>
    -- a new lifetime
    obtain rfl : now = [] := hnow
    rw [stateOf_of_none hb, stateOf_of_some ha hstate, if_neg nofun, if_neg nofun, hx]
    refine ⟨past, [(.none, some .execute, .executed)], ?_, hpast, .executed, hstate, nofun, nofun,
      .born⟩
    rw [List.append_nil]
    rfl
  | @moved r r' hm =>
    obtain ⟨a, hra, hlive, hopen, hlife⟩ := hnow
    rw [stateOf_of_some hb hra]
    obtain hsame | ⟨-, y, g, a', b, hy, hg, hedge, -, hclosed, hra', hrb⟩ := hm.state
    · rw [stateOf_of_some ha (hsame.trans hra), if_pos rfl]
      exact ⟨past, now, List.append_nil _, hpast, a, hsame.trans hra, hlive, hopen, hlife⟩
    · obtain rfl := TradeState.code_injective (hra.symm.trans hra')
      obtain ⟨hne, hnone⟩ := ne_of_mem_kEdges hedge
      rw [stateOf_of_some ha hrb, if_neg hne, if_neg hnone, hy, Option.bind_some, hg]
      refine ⟨past, now ++ [(a, some g, b)], ?_, hpast, b, hrb, hnone, hclosed, hlife.step hedge⟩
      rw [List.append_assoc]
      rfl
  | @closed e r hok hx hstate hout =>
    -- the lifetime ends
    obtain ⟨a, hra, -, -, hlife⟩ := hnow
    obtain rfl := TradeState.code_injective (hra.symm.trans hstate)
    rw [stateOf_of_some hb hstate, stateOf_of_none ha, if_neg nofun, if_pos rfl, hx]
    refine ⟨past ++ [now ++ [(.settled, some .close, .closed)]], [], ?_, ?_, rfl⟩
    · rw [List.flatten_append, List.flatten_singleton, List.append_nil, List.append_assoc]
      rfl
    · intro es hes
      obtain hes | hes := List.mem_append.mp hes
      · exact hpast es hes
      · rw [List.mem_singleton.mp hes]
        exact hlife.step (by decide)

/-- By induction on the session. -/
theorem lived_session {s₀ : PartitionState} (hs₀ : s₀.Sound) (hempty : s₀.trades = [])
    {steps : List Step} (h : Session s₀ steps s) (id : UInt64) : Lived id steps s := by
  induction h with
  | start =>
    refine ⟨[], [], rfl, nofun, ?_⟩
    rw [tradeOf, hempty]
    rfl
  | event h happ ih =>
    have hs := h.sound hs₀
    exact ih.step (tradeStep_of_rowsStep hs (rowsStep_apply hs happ) id)
  | reload h hsave hload ih =>
    obtain ⟨past, now, hedges, hpast, hnow⟩ := ih
    refine ⟨past, now, hedges, hpast, ?_⟩
    rw [tradeOf, ← (agree_of_load (h.sound hs₀) hsave hload).sameState.trades]
    exact hnow

/-- **Trade lifecycles follow the graph.** In every session, for every trade: the changes of its
state are lifetimes, each a path in `kEdges` from its execution under the triggers of the events,
all but the last ending with a closing; a rejected event changes none. A row enters the table by an
execution with its id, keeps what it was executed with, and leaves the table settled, when a day is
opened whose window does not have its date. -/
theorem lifecycle {arena arena₀ : Arena} {pid : UInt16} {c : PartitionCapacity}
    {s₀ s : PartitionState} (hinit : blank.init arena pid c = .ok (true, s₀, arena₀))
    {steps : List Step} (h : Session s₀ steps s) (id : UInt64) :
    Lived id steps s ∧
    ∀ x ∈ steps, (classify x.st = .rejected → x.edge id = none) ∧
      (∀ r, x.before.tradeOf id = none → x.after.tradeOf id = some r →
        ∃ e, LogRecord.event x.ev = some (.tradeExecuted e) ∧ e.tradeId = id) ∧
      (∀ r r', x.before.tradeOf id = some r → x.after.tradeOf id = some r' → r'.fixed = r.fixed) ∧
      (∀ r, x.before.tradeOf id = some r → x.after.tradeOf id = none →
        r.state = TradeState.settled.code ∧ x.st.isOk = true ∧
          (∃ e, LogRecord.event x.ev = some (.dayOpened e)) ∧
          x.after.window.slotOf r.settlementDate = none) := by
  have hs₀ := sound_init hinit
  have hempty : s₀.trades = [] := by
    obtain ⟨-, -, slots, -, rfl⟩ := init_eq_ok hinit
    rfl
  refine ⟨lived_session hs₀ hempty h id, fun x hx => ?_⟩
  obtain ⟨hs, o, e, happ, hafter⟩ := h.applied hs₀ hx
  -- one event, told of this trade: the rest is by cases on it
  have hstep := tradeStep_of_rowsStep hs (rowsStep_apply hs happ) id
  rw [← hafter] at hstep
  unfold Step.edge
  generalize hb : x.before.tradeOf id = before at hstep ⊢
  generalize ha : x.after.tradeOf id = after at hstep ⊢
  cases hstep with
  | absent =>
    refine ⟨fun _ => ?_, nofun, nofun, nofun⟩
    rw [stateOf_of_none hb, stateOf_of_none ha, if_pos rfl]
  | born hst hx hid hstate =>
    exact ⟨fun hrej => absurd hrej hst, fun r _ _ => ⟨_, hx, hid⟩, nofun, nofun⟩
  | @moved r r' hm =>
    refine ⟨fun hrej => ?_, nofun, fun q q' hq hq' => ?_, nofun⟩
    · obtain hsame | ⟨hst, -⟩ := hm.state
      · rw [stateOf, stateOf, hb, ha, Option.bind_some, Option.bind_some, hsame, if_pos rfl]
      · exact absurd hrej hst
    · rw [← Option.some.inj hq, ← Option.some.inj hq']
      exact hm.fixed
  | closed hok hx hstate hout =>
    refine ⟨fun hrej => ?_, nofun, nofun, fun q hq _ => ?_⟩
    · rw [classify, if_pos hok] at hrej
      cases hrej
    · obtain rfl := Option.some.inj hq
      exact ⟨hstate, hok, ⟨_, hx⟩, hout⟩

/-- The trade of `boughtOne`, allocated, netted and settled, and the first day after it. -/
def throughLife : List Event :=
  [.closingPriceSet quoted, .dayOpened firstDay, .tradeExecuted boughtOne,
    .tradeAllocated ⟨1, 1, 1, 10000, 0, 20260903, 1⟩, .batchNetted ⟨1, 0, 20260903, 1⟩,
    .tradeSettled ⟨1, 10000, 0, 0, 1, 20260903, 1, 1⟩,
    .dayOpened ⟨20260904, 20260903, 20260907, 20260908⟩]

/-- A trade that is executed, netted, delivered and removed, and then unknown. -/
theorem lifecycle_throughLife :
    ∃ s₀ arena₀ s steps, blank.init ⟨2 ^ 16, 0, false, false⟩ 1 ⟨2, 2, 2, 2, 2, 2, 2, 2, 60⟩ =
        .ok (true, s₀, arena₀) ∧ Session s₀ steps s ∧
      steps.map Step.ev = (feed throughLife).map Prod.fst ∧
      steps.map Step.st = List.replicate 7 .kOk ∧ s.tradeOf 1 = none ∧ Lived 1 steps s := by
  have hinit : ∃ s₀ arena₀, blank.init ⟨2 ^ 16, 0, false, false⟩ 1
      ⟨2, 2, 2, 2, 2, 2, 2, 2, 60⟩ = .ok (true, s₀, arena₀) ∧ ∃ s,
      applyAll s₀ (feed throughLife) = .ok (List.replicate 7 .kOk, s) ∧ s.tradeOf 1 = none :=
    ⟨_, _, rfl, _, rfl, rfl⟩
  obtain ⟨s₀, arena₀, hinit, s, hrun, hgone⟩ := hinit
  obtain ⟨steps, hsession, hevs, hsts⟩ := session_of_applyAll hrun
  exact ⟨s₀, arena₀, s, steps, hinit, hsession, hevs, hsts, hgone,
    (lifecycle hinit hsession 1).1⟩

end MotorRv
