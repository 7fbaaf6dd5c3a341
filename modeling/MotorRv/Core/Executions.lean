import MotorRv.Core.Isolation
import MotorRv.Core.Records
import MotorRv.Core.Session

/-!
# A trade is executed once

The index of trades forgets a trade when it is compacted, and then only the settlement window turns
down a second execution. It does: a trade is compacted when its date is behind the window, and
along a calendar the window never comes back to a date.

A calendar is a strictly increasing sequence of dates of which the window shows three at a time, and
`Step.OnCalendar` asks that each opening of a day advances it. Then a trade has one of three
positions: live with its date in a window, live with a date that has left it, or gone, and gone only
with its date behind the window. `Spent` joins the last two with the first: an execution with this
id and date is not accepted again, either because the index has it or because its date is not in the
window any more.

`Dates` is what the calendar gives at any moment, `Dates.step` moves it along an event, and the
induction is over the session, with reloads anywhere, since both halves survive a reload.
-/

namespace MotorRv

open Lib PartitionState Apply

/-! ### What a trade keeps -/

/-- A trade row without the columns that change while it lives. -/
def TradeRow.fixed (r : TradeRow) : TradeRow := { r with account := 0, state := 0, next := none }

/-- What is fixed of a trade does not depend on the links. -/
theorem map_fixed_of_unlinked {rows rows' : List TradeRow}
    (h : rows'.map TradeRow.unlinked = rows.map TradeRow.unlinked) :
    rows'.map TradeRow.fixed = rows.map TradeRow.fixed :=
  map_of_unlinkedTrades TradeRow.fixed (fun _ => rfl) h

/-- Advancing trades changes states only. -/
theorem advance_fixed {covered : TradeRow → Bool} {g : TradeTrigger} : ∀ {fuel : ℕ}
    {l : Option ℕ} {trades rows : List TradeRow} {n : ℕ},
    advance covered g fuel l trades = .ok (n, rows) →
      rows.map TradeRow.fixed = trades.map TradeRow.fixed := by
  intro fuel
  induction fuel with
  | zero =>
    intro l trades rows n h
    cases l with
    | none =>
      obtain ⟨-, rfl⟩ := Prod.mk.inj (Except.ok.inj h)
      rfl
    | some t => cases h
  | succ fuel ih =>
    intro l trades rows n h
    cases l with
    | none =>
      obtain ⟨-, rfl⟩ := Prod.mk.inj (Except.ok.inj h)
      rfl
    | some t =>
      simp only [advance, bind, except_bind_eq_ok] at h
      obtain ⟨q, hq, h⟩ := h
      split_ifs at h with hc
      · simp only [except_bind_eq_ok] at h
        obtain ⟨st, -, h⟩ := h
        split_ifs at h
        · exact ih h
        · simp only [except_bind_eq_ok] at h
          obtain ⟨⟨m, rows'⟩, hrec, h⟩ := h
          obtain ⟨-, rfl⟩ := Prod.mk.inj (Except.ok.inj h)
          exact (ih hrec).trans (map_set_of_eq (rowAt_eq_ok.mp hq) rfl)
      · exact ih h

/-- What an event does to the table of trades and to the window. -/
inductive TradesStep (s s' : PartitionState) (st : Status) : Option Event → Prop
  | kept {x} (hrows : s'.trades.map TradeRow.fixed = s.trades.map TradeRow.fixed)
      (hwin : s'.window = s.window) (hdate : s'.businessDate = s.businessDate) :
    TradesStep s s' st x
  | executed {e k acct inst cash next} (hnew : e.tradeId ∉ s.tradeKeys)
      (hk : s.window.slotOf e.settlementDate = some k)
      (hrows : s'.trades.map TradeRow.fixed =
        s.trades.map TradeRow.fixed ++ [(newTrade e acct inst cash next).fixed])
      (hwin : s'.window = s.window) (hdate : s'.businessDate = s.businessDate) :
    TradesStep s s' st (some (.tradeExecuted e))
  | opened {e} (hok : st.isOk = true)
      (hnext : s.businessDate = 0 ∨ s.businessDate < e.businessDate)
      (hrows : s'.trades.map TradeRow.fixed =
        (s.trades.filter fun t => !closes (newWindow e) t).map TradeRow.fixed)
      (hwin : s'.window = newWindow e) (hdate : s'.businessDate = e.businessDate) :
    TradesStep s s' st (some (.dayOpened e))

variable {s s' : PartitionState}

/-- By cases on the effect: an execution adds a trade of its own, the opening of a day drops trades,
and nothing else touches what is fixed of them. -/
theorem Effect.tradesStep {x : Event} (h : Effect s x s') {st : Status}
    (hst : st.isOk = true ∨ x.moves = true) : TradesStep s s' st (some x) := by
  cases h with
  | dayOpened _ hnext h =>
    have hopen := opened_of_openDay h
    have hok := hst.resolve_right Bool.false_ne_true
    exact .opened hok hnext (map_fixed_of_unlinked hopen.trades) hopen.window hopen.businessDate
  -- only an execution adds a trade, and only an opening removes any
  | @tradeExecuted e s₁ k gross fees cash i c c' a a' acct inst pos hI _ hnew _ _ _ _ hk =>
    exact @TradesStep.executed _ _ _ e k acct inst cash a'.firstTrade hnew hk (by simp) hI.window
      hI.businessDate
  | allocatedInPlace hI _ hr =>
    exact .kept (map_set_of_eq hr rfl) hI.window hI.businessDate
  | @allocated e s₁ s₂ r r' k c₁ c₁' c₂ c₂' a₁ a₁' a₂ a₂' t de para _ _ hI _ hr _ _ _ _ _ _ _ _ _ _
      _ _ _ _ _ _ _ _ hlink hr' =>
    obtain ⟨-, ⟨q, hq, hrows⟩, hrest⟩ := relinkTrade_rows hlink
    refine .kept ?_ (by rw [hrest]; exact hI.window) (by rw [hrest]; exact hI.businessDate)
    calc (s₂.trades.set t { r' with state := TradeState.allocated.code }).map TradeRow.fixed
        = s₂.trades.map TradeRow.fixed := map_set_of_eq hr' rfl
      _ = _ := map_fixed_of_unlinked hrows
      _ = s₁.trades.map TradeRow.fixed := map_set_of_eq hq rfl
      _ = s.trades.map TradeRow.fixed := by rw [hI.trades]
  | batchNetted hI _ _ _ _ hadv hlog =>
    obtain ⟨xs, n, d, rfl⟩ := hlog
    exact .kept (advance_fixed hadv) hI.window hI.businessDate
  | tradeSettled hI _ _ _ hadv hlog =>
    obtain ⟨xs, n, d, rfl⟩ := hlog
    exact .kept (advance_fixed hadv) hI.window hI.businessDate
  | corporateActionApplied hI _ _ _ _ _ _ _ _ _ _ _ _ _ hlog =>
    obtain ⟨xs, n, d, rfl⟩ := hlog
    exact .kept (congrArg _ hI.trades) hI.window hI.businessDate
  | dividendPaid hI | closingPriceSet hI =>
    exact .kept (congrArg _ hI.trades) hI.window hI.businessDate
  | custodyReconciled =>
    obtain ⟨xs, n, d, f, hrest⟩ := recordDivergences_rest _ _ s
    rw [hrest]
    exact .kept rfl rfl rfl
  | eodMarked => exact .kept rfl rfl rfl

/-- A rejected event leaves the trades. -/
theorem Kept.tradesStep (h : Kept s s') (st : Status) (x : Option Event) :
    TradesStep s s' st x :=
  .kept (by rw [h.trades]) h.window h.businessDate

/-- An event that ends without effect adds no trade unless it stops the partition. -/
theorem Ended.tradesStep {ev : EventView} {st : Status} (h : Ended s ev st s') :
    TradesStep s s' st (LogRecord.event ev) := by
  cases h with
  | turned hkept => exact hkept.tradesStep _ _
  | executedBefore | diverged => exact .kept rfl rfl rfl
  | actionBefore _ hI | incomeBefore _ hI => exact hI.kept.tradesStep _ _
  | refused _ hI => exact .kept (congrArg _ hI.trades) hI.window hI.businessDate
  | unpublished hev hmoves heff | corrupt hev hmoves heff =>
    exact hev ▸ heff.tradesStep (.inr hmoves)
  | @corruptMove _ _ t r d hev heff _ hr =>
    rw [hev]
    cases @Effect.tradesStep _ _ _ heff (.fail .stateCorrupt d) (.inr rfl) with
    | kept hrows hwin hdate =>
      have hset : (s'.trades.set t { r with state := TradeState.allocated.code }).map
          TradeRow.fixed = s'.trades.map TradeRow.fixed := map_set_of_eq hr rfl
      exact .kept (hset.symm.trans hrows) hwin hdate

/-- Every event adds one trade at most. -/
theorem tradesStep_apply (hs : s.Sound) {o : Option Outbox} {ev : EventView} {st : Status}
    {e : Engine} (h : apply ⟨s, o⟩ ev = .ok (st, e)) :
    TradesStep s e.s st (LogRecord.event ev) := by
  obtain ⟨s', hs', hcases⟩ := apply_cases hs h
  have hstep : TradesStep s s' st (LogRecord.event ev) := by
    obtain ⟨rfl, x, hx, heff⟩ | hend := hcases
    · exact hx ▸ heff.tradesStep (.inl rfl)
    · exact hend.tradesStep
  rw [hs']
  generalize LogRecord.event ev = x at hstep
  cases hstep with
  | kept hrows hwin hdate => exact .kept hrows hwin hdate
  | executed hnew hk hrows hwin hdate => exact .executed hnew hk hrows hwin hdate
  | opened hok hnext hrows hwin hdate => exact .opened hok hnext hrows hwin hdate

/-! ### Calendars -/

/-- The business days, in order. -/
structure Calendar where
  days : List DateYmd
  increasing : days.Pairwise (· < ·)
  nonzero : ∀ d ∈ days, d ≠ 0

namespace Calendar

variable {cal : Calendar} {i j : ℕ} {a b : DateYmd}

/-- The window is a business day and the two after it. -/
def IsWindow (cal : Calendar) (w : SettlementWindow) : Prop :=
  ∃ i, cal.days[i]? = some (w 0) ∧ cal.days[i + 1]? = some (w 1) ∧ cal.days[i + 2]? = some (w 2)

/-- The days of a calendar are in order. -/
theorem lt_of_lt (ha : cal.days[i]? = some a) (hb : cal.days[j]? = some b) (h : i < j) : a < b := by
  obtain ⟨hi, rfl⟩ := List.getElem?_eq_some_iff.mp ha
  obtain ⟨hj, rfl⟩ := List.getElem?_eq_some_iff.mp hb
  exact List.pairwise_iff_getElem.mp cal.increasing i j hi hj h

theorem le_of_le (ha : cal.days[i]? = some a) (hb : cal.days[j]? = some b) (h : i ≤ j) :
    a ≤ b := by
  rcases Nat.lt_or_eq_of_le h with h | rfl
  · exact UInt32.le_of_lt (lt_of_lt ha hb h)
  · rw [Option.some.inj (ha.symm.trans hb)]
    exact UInt32.le_refl b

/-- The order of dates is the order of their places. -/
theorem index_le (ha : cal.days[i]? = some a) (hb : cal.days[j]? = some b) (h : a ≤ b) :
    i ≤ j := by
  by_contra hij
  exact UInt32.not_le.mpr (lt_of_lt hb ha (by omega)) h

/-- The first day of a window is its least. -/
theorem IsWindow.zero_le {w : SettlementWindow} (h : cal.IsWindow w) (k : Fin 3) : w 0 ≤ w k := by
  obtain ⟨i, h0, h1, h2⟩ := h
  fin_cases k
  · exact UInt32.le_refl _
  · exact le_of_le h0 h1 (by omega)
  · exact le_of_le h0 h2 (by omega)

/-- The first day of a window is a date. -/
theorem IsWindow.zero_lt {w : SettlementWindow} (h : cal.IsWindow w) : 0 < w 0 := by
  obtain ⟨i, h0, -⟩ := h
  exact UInt32.pos_iff_ne_zero.mpr (cal.nonzero _ (List.mem_of_getElem? h0))

/-- The end of a later window is not before that of an earlier one. -/
theorem IsWindow.two_le {w w' : SettlementWindow} (h : cal.IsWindow w) (h' : cal.IsWindow w')
    (hlt : w 0 < w' 0) : w 2 ≤ w' 2 := by
  obtain ⟨i, h0, -, h2⟩ := h
  obtain ⟨j, h0', -, h2'⟩ := h'
  have hij := index_le h0 h0' (UInt32.le_of_lt hlt)
  exact le_of_le h2 h2' (by omega)

/-- A business day up to the end of a window that is in no later window is behind it. -/
theorem IsWindow.behind {w w' : SettlementWindow} (h : cal.IsWindow w) (h' : cal.IsWindow w')
    (hlt : w 0 < w' 0) {d : DateYmd} (hd : d ∈ cal.days) (hle : d ≤ w 2)
    (hout : ∀ k, w' k ≠ d) : d < w' 0 := by
  obtain ⟨i, h0, -, h2⟩ := h
  obtain ⟨j, h0', h1', h2'⟩ := h'
  obtain ⟨m, hm⟩ := List.mem_iff_getElem?.mp hd
  have hmi := index_le hm h2 hle
  have hij : i < j := by
    by_contra hji
    exact UInt32.not_le.mpr hlt (le_of_le h0' h0 (by omega))
  refine lt_of_lt hm h0' ?_
  by_contra hjm
  obtain rfl | rfl | rfl : m = j ∨ m = j + 1 ∨ m = j + 2 := by omega
  · exact hout 0 (Option.some.inj (h0'.symm.trans hm))
  · exact hout 1 (Option.some.inj (h1'.symm.trans hm))
  · exact hout 2 (Option.some.inj (h2'.symm.trans hm))

end Calendar

variable {cal : Calendar}

/-- The window is still empty, or that of the business day. -/
def OnDay (cal : Calendar) (s : PartitionState) : Prop :=
  (s.window = fun _ => 0) ∧ s.businessDate = 0 ∨
    cal.IsWindow s.window ∧ s.businessDate = s.window 0

/-- The date of a live trade: of the calendar, unless it came before the first day, and not beyond
the window. -/
def DateOk (cal : Calendar) (s : PartitionState) (d : DateYmd) : Prop :=
  (d = 0 ∨ d ∈ cal.days) ∧ d ≤ s.window 2

/-- The date is behind the window. -/
def Behind (s : PartitionState) (d : DateYmd) : Prop := ∀ k, d < s.window k

/-- A trade with this id and date lives, or its date is behind the window. -/
def Spent (s : PartitionState) (id : UInt64) (d : DateYmd) : Prop :=
  (∃ r ∈ s.trades.map TradeRow.fixed, r.tradeId = id ∧ r.settlementDate = d) ∨ Behind s d

/-- What the calendar gives at any moment of a run. -/
structure Dates (cal : Calendar) (s : PartitionState) : Prop where
  day : OnDay cal s
  trades : ∀ r ∈ s.trades.map TradeRow.fixed, DateOk cal s r.settlementDate

/-- A date of the window is a date of the calendar. -/
theorem OnDay.dateOk (h : OnDay cal s) {d : DateYmd} {k : Fin 3} (hk : s.window k = d) :
    DateOk cal s d := by
  subst hk
  obtain ⟨hzero, -⟩ | ⟨⟨i, h0, h1, h2⟩, -⟩ := h
  · rw [DateOk, hzero]
    exact ⟨.inl rfl, UInt32.le_refl _⟩
  · fin_cases k
    · exact ⟨.inr (List.mem_of_getElem? h0), Calendar.le_of_le h0 h2 (by omega)⟩
    · exact ⟨.inr (List.mem_of_getElem? h1), Calendar.le_of_le h1 h2 (by omega)⟩
    · exact ⟨.inr (List.mem_of_getElem? h2), UInt32.le_refl _⟩

/-- The next window begins on a later day. -/
theorem OnDay.lt_of_next (h : OnDay cal s) {w : SettlementWindow} (hw : cal.IsWindow w)
    (hnext : s.businessDate = 0 ∨ s.businessDate < w 0) : s.window 0 < w 0 := by
  obtain ⟨hzero, -⟩ | ⟨hwin, hdate⟩ := h
  · rw [hzero]
    exact hw.zero_lt
  · rw [hdate] at hnext
    exact hnext.resolve_left (cal.nonzero _ (List.mem_of_getElem? hwin.choose_spec.1))

/-- A date that a window lets go is behind it. -/
theorem OnDay.behind (h : OnDay cal s) {w : SettlementWindow} (hw : cal.IsWindow w)
    (hlt : s.window 0 < w 0) {d : DateYmd} (hd : DateOk cal s d) (hout : ∀ k, w k ≠ d) :
    d < w 0 := by
  obtain ⟨rfl | hmem, hle⟩ := hd
  · exact hw.zero_lt
  · obtain ⟨hzero, -⟩ | ⟨hwin, -⟩ := h
    · rw [hzero] at hle
      exact UInt32.lt_of_le_of_lt hle hw.zero_lt
    · exact hwin.behind hw hlt hmem hle hout

/-- A date that is known stays so when the next day opens. -/
theorem OnDay.dateOk_next (h : OnDay cal s) {w : SettlementWindow} (hw : cal.IsWindow w)
    (hlt : s.window 0 < w 0) {d : DateYmd} (hd : DateOk cal s d) (hs' : s'.window = w) :
    DateOk cal s' d := by
  refine ⟨hd.1, hs' ▸ UInt32.le_trans hd.2 ?_⟩
  obtain ⟨hzero, -⟩ | ⟨hwin, -⟩ := h
  · rw [hzero]
    exact UInt32.zero_le
  · exact hwin.two_le hw hlt

/-- **One step.** The calendar goes on, and what is spent stays spent. -/
theorem Dates.step (h : Dates cal s) {x : Option Event} {st : Status} (hstep : TradesStep s s' st x)
    (hdays : ∀ e, x = some (.dayOpened e) → st.isOk = true → cal.IsWindow (newWindow e)) :
    Dates cal s' ∧ ∀ id d, Spent s id d → Spent s' id d := by
  obtain ⟨hday, htrades⟩ := h
  cases hstep with
  | kept hrows hwin hdate =>
    refine ⟨⟨by rwa [OnDay, hwin, hdate], fun r hr => ?_⟩, fun id d hsp => ?_⟩
    · rw [DateOk, hwin]
      exact htrades r (hrows ▸ hr)
    · rwa [Spent, Behind, hrows, hwin]
  | @executed e k acct inst cash next hnew hk hrows hwin hdate =>
    refine ⟨⟨by rwa [OnDay, hwin, hdate], fun r hr => ?_⟩, fun id d hsp => ?_⟩
    · rw [DateOk, hwin]
      rw [hrows] at hr
      obtain hr | hr := List.mem_append.mp hr
      · exact htrades r hr
      · rw [List.mem_singleton.mp hr]
        exact hday.dateOk (SettlementWindow.slotOf_eq_some hk)
    · rw [Spent, Behind, hrows, hwin]
      exact hsp.imp_left fun ⟨r, hr, heq⟩ => ⟨r, List.mem_append_left _ hr, heq⟩
  | @opened e hok hnext hrows hwin hdate =>
    have hw := hdays e rfl hok
    have hlt := hday.lt_of_next hw hnext
    refine ⟨⟨.inr ⟨hwin ▸ hw, by rw [hdate, hwin]; rfl⟩, fun r hr => ?_⟩, fun id d hsp => ?_⟩
    · rw [hrows] at hr
      have hr' := (List.filter_sublist.map TradeRow.fixed).subset hr
      exact hday.dateOk_next hw hlt (htrades r hr') hwin
    · obtain ⟨r, hr, rfl, rfl⟩ | hbehind := hsp
      · obtain ⟨q, hq, rfl⟩ := List.mem_map.mp hr
        rcases hclose : closes (newWindow e) q with _ | _
        · refine .inl ⟨_, ?_, rfl, rfl⟩
          rw [hrows]
          exact List.mem_map_of_mem (List.mem_filter.mpr ⟨hq, by simpa using hclose⟩)
        · -- a trade is compacted when its date is not in the new window
          simp only [closes, Bool.and_eq_true, decide_eq_true_eq,
            Option.isNone_iff_eq_none] at hclose
          have hout := SettlementWindow.slotOf_eq_none.mp hclose.2
          have hbehind := hday.behind hw hlt (htrades _ hr) hout
          exact .inr fun k => hwin ▸ UInt32.lt_of_lt_of_le hbehind (hw.zero_le k)
      · refine .inr fun k => hwin ▸ UInt32.lt_of_lt_of_le (UInt32.lt_trans (hbehind 0) hlt) ?_
        exact hw.zero_le k

/-- An accepted execution was not spent, and is from then on. -/
theorem spent_of_executed (hs : s.Sound) {o : Option Outbox} {ev : EventView} {st : Status}
    {e : Engine} (h : apply ⟨s, o⟩ ev = .ok (st, e)) {x : TradeExecuted}
    (hev : LogRecord.event ev = some (.tradeExecuted x)) (hok : st.isOk = true) :
    ¬ Spent s x.tradeId x.settlementDate ∧ Spent e.s x.tradeId x.settlementDate := by
  obtain ⟨s', hs', ⟨rfl, y, hy, heff⟩ | hend⟩ := apply_cases hs h
  · obtain rfl := Option.some.inj (hev.symm.trans hy)
    rw [hs']
    cases heff with
    | @tradeExecuted _ _ k _ _ _ _ _ _ _ _ _ _ _ _ _ hnew _ _ _ _ hk =>
      constructor
      · rintro (⟨r, hr, hid, -⟩ | hbehind)
        · obtain ⟨q, hq, rfl⟩ := List.mem_map.mp hr
          exact hnew (List.mem_map.mpr ⟨q, hq, hid⟩)
        · have hlt := hbehind k
          rw [SettlementWindow.slotOf_eq_some hk] at hlt
          exact UInt32.lt_irrefl _ hlt
      · refine .inl ⟨_, List.mem_map_of_mem (List.mem_append_right _ (List.mem_singleton_self _)),
          rfl, rfl⟩
  · rw [hend.isOk_eq_false] at hok
    cases hok

/-! ### Runs -/

/-- The execution an event stands for. -/
def Step.execution (x : Step) : Option TradeExecuted :=
  match LogRecord.event x.ev with
  | some (.tradeExecuted e) => some e
  | _ => none

theorem Step.event_of_execution {x : Step} {e : TradeExecuted} (h : x.execution = some e) :
    LogRecord.event x.ev = some (.tradeExecuted e) := by
  unfold Step.execution at h
  split at h
  · rename_i heq
    rw [heq, Option.some.inj h]
  · cases h

/-- What holds of a session along a calendar, step after step. -/
structure Executions (cal : Calendar) (steps : List Step) (s : PartitionState) : Prop where
  sound : s.Sound
  dates : Dates cal s
  spent : ∀ x ∈ steps, ∀ e, x.execution = some e → x.st.isOk = true →
    Spent s e.tradeId e.settlementDate
  once : steps.Pairwise fun x y => ∀ e e', x.execution = some e → y.execution = some e' →
    x.st.isOk = true → y.st.isOk = true →
      ¬ (e.tradeId = e'.tradeId ∧ e.settlementDate = e'.settlementDate)

/-- By induction on the session, along the calendar. -/
theorem executions_session {s₀ : PartitionState} (hs₀ : Executions cal [] s₀) {steps : List Step}
    (h : Session s₀ steps s) (hdays : ∀ x ∈ steps, ∀ e, LogRecord.event x.ev = some (.dayOpened e) →
      x.st.isOk = true → cal.IsWindow (newWindow e)) : Executions cal steps s := by
  induction h with
  | start => exact hs₀
  | @event steps s o ev st e _ happ ih =>
    obtain ⟨hs, hdates, hspent, honce⟩ := ih fun x hx => hdays x (List.mem_append_left _ hx)
    have hday := hdays ⟨s, ev, st, e.s⟩ (List.mem_append_right _ (List.mem_singleton_self _))
    obtain ⟨hdates', hmono⟩ := hdates.step (tradesStep_apply hs happ) hday
    refine ⟨sound_apply hs happ, hdates', fun x hx y hy hok => ?_, ?_⟩
    · obtain hx | hx := List.mem_append.mp hx
      · exact hmono _ _ (hspent x hx y hy hok)
      · obtain rfl := List.mem_singleton.mp hx
        exact (spent_of_executed hs happ (Step.event_of_execution hy) hok).2
    · refine List.pairwise_append.mpr ⟨honce, List.pairwise_singleton _ _, ?_⟩
      rintro x hx y hy a b ha hb hoka hokb ⟨hid, hdate⟩
      obtain rfl := List.mem_singleton.mp hy
      have hnew := (spent_of_executed hs happ (Step.event_of_execution hb) hokb).1
      exact hnew (hid ▸ hdate ▸ hspent x hx a ha hoka)
  | @reload steps s room image target arena arena' t _ hsave hload ih =>
    obtain ⟨hs, ⟨hday, htrades⟩, hspent, honce⟩ := ih hdays
    have hag := agree_of_load hs hsave hload
    have hsame := hag.sameState
    refine ⟨hag.sound hs, ⟨?_, ?_⟩, ?_, honce⟩
    · rwa [OnDay, ← hsame.window, ← hsame.businessDate]
    · simpa only [DateOk, ← hsame.trades, ← hsame.window] using htrades
    · simpa only [Spent, Behind, ← hsame.trades, ← hsame.window] using hspent

/-- **Executed at most once.** In a session along a calendar, saved and loaded anywhere, no two
accepted executions have the same trade and the same settlement date. -/
theorem executed_once (cal : Calendar) {arena arena₀ : Arena} {pid : UInt16} {c : PartitionCapacity}
    {s₀ s : PartitionState} (hinit : blank.init arena pid c = .ok (true, s₀, arena₀))
    {steps : List Step} (h : Session s₀ steps s)
    (hdays : ∀ x ∈ steps, ∀ e, LogRecord.event x.ev = some (.dayOpened e) →
      x.st.isOk = true → cal.IsWindow (newWindow e)) :
    steps.Pairwise fun x y => ∀ e e', x.execution = some e → y.execution = some e' →
      x.st.isOk = true → y.st.isOk = true →
        ¬ (e.tradeId = e'.tradeId ∧ e.settlementDate = e'.settlementDate) := by
  refine (executions_session ⟨sound_init hinit, ?_, by simp, .nil⟩ h hdays).once
  obtain ⟨-, -, slots, -, rfl⟩ := init_eq_ok hinit
  refine ⟨.inl ⟨rfl, rfl⟩, fun r hr => ?_⟩
  cases hr

/-- The days of `firstDay`. -/
def threeDays : Calendar := ⟨[20260901, 20260902, 20260903], by decide, by simp⟩

/-- The business days around `firstDay`. -/
def sixDays : Calendar :=
  ⟨[20260901, 20260902, 20260903, 20260904, 20260907, 20260908], by decide, by simp⟩

/-- A purchase is executed, executed once more, settled, and compacted away when the next day opens;
then it is executed again, first for its old date and then for a new one. -/
def executedAgain : List Event :=
  [.closingPriceSet quoted, .dayOpened firstDay, .tradeExecuted boughtOne, .tradeExecuted boughtOne,
    .tradeAllocated ⟨1, 1, 1, 10000, 0, 20260903, 1⟩, .batchNetted ⟨1, 0, 20260903, 1⟩,
    .tradeSettled ⟨1, 10000, 0, 0, 1, 20260903, 1, 1⟩,
    .dayOpened ⟨20260904, 20260903, 20260907, 20260908⟩, .tradeExecuted boughtOne,
    .tradeExecuted { boughtOne with settlementDate := 20260908 }]

/-- Both repetitions for the old date are rejected, before and after the row is free. -/
theorem executed_once_compacted :
    ∃ s₀ arena₀ s steps, blank.init ⟨2 ^ 16, 0, false, false⟩ 1 ⟨2, 2, 2, 2, 2, 2, 2, 2, 60⟩ =
        .ok (true, s₀, arena₀) ∧ Session s₀ steps s ∧
      steps.map (fun x => x.st.code) = [.ok, .ok, .ok, .alreadyApplied, .ok, .ok, .ok, .ok,
        .outsideSettlementWindow, .ok] ∧
      steps.map (fun x => x.after.trades.length) = [0, 0, 1, 1, 1, 1, 1, 0, 0, 1] ∧
      steps.Pairwise fun x y => ∀ e e', x.execution = some e → y.execution = some e' →
        x.st.isOk = true → y.st.isOk = true →
          ¬ (e.tradeId = e'.tradeId ∧ e.settlementDate = e'.settlementDate) := by
  obtain ⟨s₀, arena₀, s, steps, hinit, h, hrun⟩ := @exists_of_runPasses
    ⟨2, 2, 2, 2, 2, 2, 2, 2, 60⟩ executedAgain
    (fun steps _ => decide (steps.map Step.ev = (feed executedAgain).map Prod.fst ∧
      steps.map (fun x => x.st.code) = [.ok, .ok, .ok, .alreadyApplied, .ok, .ok, .ok, .ok,
        .outsideSettlementWindow, .ok] ∧
      steps.map (fun x => x.after.trades.length) = [0, 0, 1, 1, 1, 1, 1, 0, 0, 1]))
    (by decide +kernel)
  obtain ⟨hevs, hcodes, hrows⟩ := of_decide_eq_true hrun
  refine ⟨s₀, arena₀, s, steps, hinit, h, hcodes, hrows, executed_once sixDays hinit h
    fun x hx e he _ => ?_⟩
  have hmem : x.ev ∈ steps.map Step.ev := List.mem_map_of_mem hx
  obtain ⟨y, hy, heq⟩ := event_of_mem_feed (by simp [executedAgain, Event.Fits]) (hevs ▸ hmem)
  obtain rfl := Option.some.inj (heq.symm.trans he)
  obtain rfl | rfl : e = firstDay ∨ e = ⟨20260904, 20260903, 20260907, 20260908⟩ := by
    simpa [executedAgain] using hy
  · exact ⟨0, rfl, rfl, rfl⟩
  · exact ⟨3, rfl, rfl, rfl⟩

end MotorRv
