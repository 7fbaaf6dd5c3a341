import MotorRv.Core.Idempotency
import MotorRv.Core.Lifecycle

/-!
# Trades that settlement has passed by

Netting, settling and failing need the date of a trade in the window, and only settled trades are
compacted. Along a calendar a date that the window has left does not come back, so a trade that was
not settled in time keeps its row for good: it can still be allocated, or bought in after a failed
delivery, and nothing else. When such rows fill the table, no execution is accepted any more.

`Stranded` lists the changes that remain open to a trade whose date is behind the window: those
under triggers for which the handler asks for no date. Along a calendar the window never comes back
(`Behind.step`), so `PassedBy` is stable, and the induction over the session shows that the row
stays, by its id, whatever else happens to the table.

The second part counts. Rows of trades that were passed by are never free again
(`length_le_of_passedBy`), an accepted execution takes a new row (`room_of_executed`), and so a
table that is full of them refuses every execution from then on, reloads included.
-/

namespace MotorRv

open Lib PartitionState Apply

variable {s s' : PartitionState}

/-! ### One event -/

/-- A walk that changes a row visits it under a covering predicate. -/
theorem covered_of_advance {covered : TradeRow → Bool} {g : TradeTrigger} {fuel n i : ℕ}
    {l : Option ℕ} {rows rows' : List TradeRow} {r r' : TradeRow}
    (h : advance covered g fuel l rows = .ok (n, rows')) (hr : rows[i]? = some r)
    (hr' : rows'[i]? = some r') (hne : r'.state ≠ r.state) : covered r = true := by
  obtain ⟨is, -, hrows⟩ := advance_visits h
  have hrow := hrows i
  rw [hr, hr', Option.map_some, Option.some.injEq] at hrow
  by_contra hcov
  refine hne ?_
  rw [hrow]
  split_ifs with hvisit
  · rw [stepped, if_neg hcov]
  · rfl

/-- The rows of a walk, found by their id. -/
theorem covered_of_tradeOf (hs : s.Sound) {covered : TradeRow → Bool} {g : TradeTrigger}
    {fuel n : ℕ} {l : Option ℕ} {id : UInt64} {r r' : TradeRow}
    (hadv : advance covered g fuel l s.trades = .ok (n, s'.trades)) (hr : s.tradeOf id = some r)
    (hr' : s'.tradeOf id = some r') (hne : r'.state ≠ r.state) : covered r = true := by
  obtain ⟨i, hi⟩ := List.mem_iff_getElem?.mp (List.mem_of_find?_eq_some hr')
  have hfixed := advance_fixed hadv
  have hrow := congrArg (fun l => l[i]?) hfixed
  simp only [List.getElem?_map, hi, Option.map_some] at hrow
  obtain ⟨q, hq, hqr⟩ := Option.map_eq_some_iff.mp hrow.symm
  -- the row at the same place has the same id, so it is the row found before
  have hid' : r'.tradeId = id := by simpa using List.find?_some hr'
  have hid : r.tradeId = id := by simpa using List.find?_some hr
  have hqid : q.tradeId = r'.tradeId := congrArg (fun r => r.tradeId) hqr
  have hsame : q = r := List.inj_on_of_nodup_map hs.trades.index.nodup (List.mem_of_getElem? hq)
    (List.mem_of_find?_eq_some hr) (hqid.trans (hid'.trans hid.symm))
  exact covered_of_advance hadv (hsame ▸ hq) hi hne

/-- Netting, settling and failing are for trades whose date is in the window. -/
theorem Effect.slot_of_moved (hs : s.Sound) {x : Event} (h : Effect s x s') {id : UInt64}
    {r r' : TradeRow} (hr : s.tradeOf id = some r) (hr' : s'.tradeOf id = some r')
    (hne : r'.state ≠ r.state) {g : TradeTrigger} (hg : x.trigger = some g)
    (hgate : g = .net ∨ g = .settle ∨ g = .fail) : s.window.slotOf r.settlementDate ≠ none := by
  cases h with
  | @batchNetted e s₁ k a n rows s' acct hI hacct ha hk hnet hadv hlog =>
    have hrows : s'.trades = rows := hlog.trades
    have hcov := covered_of_tradeOf hs (hrows ▸ hadv) hr hr' hne
    simp only [ofBatch, Bool.and_eq_true, decide_eq_true_eq] at hcov
    rw [hcov.2, hk]
    exact Option.some_ne_none k
  | @tradeSettled e s₁ acct inst pos c a outcome c' a' n rows s' hI hfind hout hrows' hadv hlog =>
    have hrows : s'.trades = rows := hlog.trades
    have hcov := covered_of_tradeOf hs (hrows ▸ hadv) hr hr' hne
    simp only [covers, Bool.and_eq_true, decide_eq_true_eq] at hcov
    rw [hcov.1.2]
    cases hrows' with
    | settled hk => rw [hk]; exact Option.some_ne_none _
    | deliveryFailure hk => rw [hk]; exact Option.some_ne_none _
    | boughtIn =>
      -- a buy-in asks for no slot
      rw [Event.trigger, hout, Option.map_some, Option.some.injEq] at hg
      subst hg
      rcases hgate with h | h | h <;> cases h
  | dayOpened | tradeExecuted | allocatedInPlace | allocated | closingPriceSet | eodMarked =>
    rcases hgate with rfl | rfl | rfl <;> cases hg
  | corporateActionApplied | dividendPaid | custodyReconciled => cases hg

/-- The changes that are open to a trade behind the window. -/
def Stranded (a b : UInt8) : Prop :=
  b = a ∨ a = TradeState.executed.code ∧ b = TradeState.allocated.code ∨
    a = TradeState.deliveryFailed.code ∧ b = TradeState.netted.code

theorem Stranded.refl (a : UInt8) : Stranded a a := .inl rfl

theorem Stranded.trans {a b c : UInt8} (hab : Stranded a b) (hbc : Stranded b c) :
    Stranded a c := by
  obtain rfl | ⟨rfl, rfl⟩ | ⟨rfl, rfl⟩ := hab
  · exact hbc
  · obtain rfl | ⟨h, -⟩ | ⟨h, -⟩ := hbc
    · exact .inr (.inl ⟨rfl, rfl⟩)
    · exact absurd h (by decide)
    · exact absurd h (by decide)
  · obtain rfl | ⟨h, -⟩ | ⟨h, -⟩ := hbc
    · exact .inr (.inr ⟨rfl, rfl⟩)
    · exact absurd h (by decide)
    · exact absurd h (by decide)

theorem Stranded.not_settled {a b : UInt8} (h : Stranded a b) (ha : a ≠ TradeState.settled.code) :
    b ≠ TradeState.settled.code := by
  obtain rfl | ⟨-, rfl⟩ | ⟨-, rfl⟩ := h
  · exact ha
  · decide
  · decide

/-- The edges of a live trade under the triggers that ask for no date. -/
theorem stranded_of_mem_kEdges {a b : TradeState} {g : TradeTrigger} (h : (a, g, b) ∈ kEdges)
    (hlive : a ≠ .none) (hopen : b ≠ .closed) (hgate : ¬ (g = .net ∨ g = .settle ∨ g = .fail)) :
    Stranded a.code b.code := by
  have hall : ∀ x ∈ kEdges, x.1 ≠ .none → x.2.2 ≠ .closed →
      ¬ (x.2.1 = .net ∨ x.2.1 = .settle ∨ x.2.1 = .fail) →
      x.1 = .executed ∧ x.2.2 = .allocated ∨ x.1 = .deliveryFailed ∧ x.2.2 = .netted := by
    decide
  obtain ⟨ha, hb⟩ | ⟨ha, hb⟩ := hall (a, g, b) h hlive hopen hgate
  · exact .inr (.inl ⟨congrArg TradeState.code ha, congrArg TradeState.code hb⟩)
  · exact .inr (.inr ⟨congrArg TradeState.code ha, congrArg TradeState.code hb⟩)

/-- A trade whose date is not in the window moves only where no date is asked for. -/
theorem stranded_apply (hs : s.Sound) {o : Option Outbox} {ev : EventView} {st : Status}
    {e : Engine} (h : apply ⟨s, o⟩ ev = .ok (st, e)) {id : UInt64} {r r' : TradeRow}
    (hr : s.tradeOf id = some r) (hr' : e.s.tradeOf id = some r')
    (hout : s.window.slotOf r.settlementDate = none) : Stranded r.state r'.state := by
  have hstep := tradeStep_of_rowsStep hs (rowsStep_apply hs h) id
  rw [hr, hr'] at hstep
  cases hstep with
  | moved hm =>
    obtain hsame | ⟨-, y, g, a, b, hy, hg, hedge, hlive, hopen, ha, hb⟩ := hm.state
    · exact .inl hsame
    · rw [ha, hb]
      refine stranded_of_mem_kEdges hedge hlive hopen fun hgate => ?_
      have hne : r'.state ≠ r.state := by
        rw [ha, hb]
        exact fun heq => (ne_of_mem_kEdges hedge).1 (TradeState.code_injective heq.symm)
      obtain ⟨s', hs', hcases⟩ := apply_cases hs h
      have htrades : s'.tradeOf id = some r' := by
        rw [← hr', hs']
        rfl
      -- an effect that moves the trade found its date in the window
      have hmoved : ∀ {x}, LogRecord.event ev = some x → Effect s x s' → False := by
        intro x hx heff
        obtain rfl := Option.some.inj (hy.symm.trans hx)
        exact heff.slot_of_moved hs hr htrades hne hg hgate hout
      have hkept : s'.trades = s.trades → False := by
        intro hkept
        rw [tradeOf, hkept] at htrades
        exact hne (congrArg TradeRow.state (Option.some.inj (hr.symm.trans htrades))).symm
      -- however the event ended, it either had its effect or left the rows
      obtain ⟨-, x, hx, heff⟩ | hend := hcases
      · exact hmoved hx heff
      · cases hend with
        | turned hkept' => exact hkept hkept'.trades
        | executedBefore | diverged => exact hkept rfl
        | actionBefore _ hI | incomeBefore _ hI | refused _ hI => exact hkept hI.trades
        | unpublished hev _ heff | corrupt hev _ heff => exact hmoved hev heff
        | corruptMove hev =>
          obtain rfl := Option.some.inj (hy.symm.trans hev)
          rcases hgate with rfl | rfl | rfl <;> cases hg

/-! ### Runs -/

/-- A trade that was not settled while its date was in the window. -/
structure PassedBy (s : PartitionState) (r : TradeRow) : Prop where
  row : s.tradeOf r.tradeId = some r
  unsettled : r.state ≠ TradeState.settled.code
  behind : Behind s r.settlementDate

theorem Behind.slotOf {d : DateYmd} (h : Behind s d) : s.window.slotOf d = none :=
  SettlementWindow.slotOf_eq_none.mpr fun k hk => UInt32.lt_irrefl d (hk ▸ h k)

/-- What becomes of a trade that was passed by. -/
structure Remains (s' : PartitionState) (r r' : TradeRow) : Prop where
  fixed : r'.fixed = r.fixed
  state : Stranded r.state r'.state
  passedBy : PassedBy s' r'

variable {cal : Calendar} {r r' r'' : TradeRow}

theorem Remains.trans (h : Remains s r r') (h' : Remains s' r' r'') : Remains s' r r'' :=
  ⟨h'.fixed.trans h.fixed, h.state.trans h'.state, h'.passedBy⟩

/-- What is behind the window stays behind it. -/
theorem Behind.step {d : DateYmd} (h : Behind s d) (hday : OnDay cal s) {x : Option Event}
    {st : Status} (hstep : TradesStep s s' st x)
    (hdays : ∀ e, x = some (.dayOpened e) → st.isOk = true → cal.IsWindow (newWindow e)) :
    Behind s' d := by
  intro k
  cases hstep with
  | kept _ hwin | executed _ _ _ hwin =>
    rw [hwin]
    exact h k
  | opened hok hnext _ hwin =>
    have hw := hdays _ rfl hok
    rw [hwin]
    exact UInt32.lt_of_lt_of_le (UInt32.lt_trans (h 0) (hday.lt_of_next hw hnext)) (hw.zero_le k)

/-- **One step.** A trade that was passed by keeps its row, and is still passed by. -/
theorem PassedBy.step (h : PassedBy s r) (hs : s.Sound) (hday : OnDay cal s) {o : Option Outbox}
    {ev : EventView} {st : Status} {e : Engine} (happ : apply ⟨s, o⟩ ev = .ok (st, e))
    (hdays : ∀ x, LogRecord.event ev = some (.dayOpened x) → st.isOk = true →
      cal.IsWindow (newWindow x)) : ∃ r', Remains e.s r r' := by
  have hbehind := h.behind.step hday (tradesStep_apply hs happ) hdays
  have hstep := tradeStep_of_rowsStep hs (rowsStep_apply hs happ) r.tradeId
  rw [h.row] at hstep
  rcases hr' : e.s.tradeOf r.tradeId with _ | r'
  · -- only settled trades are compacted
    rw [hr'] at hstep
    cases hstep with
    | closed _ _ hstate => exact absurd hstate h.unsettled
  · have hstate := stranded_apply hs happ h.row hr' h.behind.slotOf
    rw [hr'] at hstep
    cases hstep with
    | moved hm =>
      have hid : r'.tradeId = r.tradeId := congrArg (fun q => q.tradeId) hm.fixed
      have hdate : r'.settlementDate = r.settlementDate :=
        congrArg (fun q => q.settlementDate) hm.fixed
      exact ⟨r', hm.fixed, hstate, hid ▸ hr', hstate.not_settled h.unsettled, hdate ▸ hbehind⟩

theorem passedBy_session (hs : Executions cal [] s) {steps : List Step} (h : Session s steps s')
    (hdays : ∀ x ∈ steps, ∀ e, LogRecord.event x.ev = some (.dayOpened e) → x.st.isOk = true →
      cal.IsWindow (newWindow e)) (hr : PassedBy s r) : ∃ r', Remains s' r r' := by
  induction h with
  | start => exact ⟨r, rfl, .refl _, hr⟩
  | @event steps s₁ o ev st e h happ ih =>
    have hdays' := fun x hx => hdays x (List.mem_append_left _ hx)
    obtain ⟨r', hr'⟩ := ih hdays'
    have hexec := executions_session hs h hdays'
    have hlast := hdays ⟨s₁, ev, st, e.s⟩ (List.mem_append_right _ (List.mem_singleton_self _))
    obtain ⟨r'', hr''⟩ := hr'.passedBy.step hexec.sound hexec.dates.day happ hlast
    exact ⟨r'', hr'.trans hr''⟩
  | reload h hsave hload ih =>
    obtain ⟨r', hfixed, hstate, hrow, hopen, hbehind⟩ := ih hdays
    have hsame := (agree_of_load (h.sound hs.sound) hsave hload).sameState
    refine ⟨r', hfixed, hstate, ?_, hopen, ?_⟩
    · rwa [tradeOf, ← hsame.trades]
    · rwa [Behind, ← hsame.window]

/-- The rows of the trades that were passed by are never free again. -/
theorem length_le_of_passedBy (hs : Executions cal [] s) {steps : List Step}
    (h : Session s steps s') (hdays : ∀ x ∈ steps, ∀ e,
      LogRecord.event x.ev = some (.dayOpened e) → x.st.isOk = true → cal.IsWindow (newWindow e))
    {rows : List TradeRow} (hnodup : rows.Nodup) (hrows : ∀ r ∈ rows, PassedBy s r) :
    rows.length ≤ s'.trades.length := by
  have hids : (rows.map fun r => r.tradeId).Nodup := by
    refine hnodup.map_on fun r hr q hq hid => ?_
    have hrow := (hrows r hr).row
    rw [hid, (hrows q hq).row] at hrow
    exact (Option.some.inj hrow).symm
  have hsub : (rows.map fun r => r.tradeId) ⊆ s'.tradeKeys := by
    intro id hid
    obtain ⟨r, hr, rfl⟩ := List.mem_map.mp hid
    obtain ⟨r', hr'⟩ := passedBy_session hs h hdays (hrows r hr)
    have hmem := List.mem_of_find?_eq_some hr'.passedBy.row
    exact List.mem_map.mpr ⟨r', hmem, congrArg (fun q => q.tradeId) hr'.fixed⟩
  have hle := (hids.subperm hsub).length_le
  rwa [List.length_map, tradeKeys, List.length_map] at hle

theorem Session.cap {s₀ : PartitionState} (hs₀ : s₀.Sound) {steps : List Step}
    (h : Session s₀ steps s) : s.cap = s₀.cap := by
  induction h with
  | start => rfl
  | event h happ ih =>
    obtain ⟨s', hs', hcases⟩ := apply_cases (h.sound hs₀) happ
    have hcap : s'.cap = _ := hcases.elim (fun ⟨_, _, _, heff⟩ => heff.cap) Ended.cap
    rw [hs', ← ih, ← hcap]
  | reload h hsave hload ih =>
    rw [← (agree_of_load (h.sound hs₀) hsave hload).sameState.cap, ih]

/-- An execution that is accepted takes a new row. -/
theorem room_of_executed (hs : s.Sound) {o : Option Outbox} {ev : EventView} {st : Status}
    {e : Engine} (h : apply ⟨s, o⟩ ev = .ok (st, e)) {x : TradeExecuted}
    (hev : LogRecord.event ev = some (.tradeExecuted x)) (hok : st.isOk = true) :
    s.trades.length < s.cap.trades.toNat := by
  obtain ⟨s', -, ⟨-, y, hy, heff⟩ | hend⟩ := apply_cases hs h
  · obtain rfl := Option.some.inj (hev.symm.trans hy)
    cases heff with
    | tradeExecuted _ hroom => exact hroom
  · rw [hend.isOk_eq_false] at hok
    cases hok

/-- When the trades that were passed by take every row, no execution is accepted. -/
theorem refused_of_passedBy (hs : Executions cal [] s) {steps : List Step}
    (h : Session s steps s') (hdays : ∀ x ∈ steps, ∀ e,
      LogRecord.event x.ev = some (.dayOpened e) → x.st.isOk = true → cal.IsWindow (newWindow e))
    {rows : List TradeRow} (hnodup : rows.Nodup) (hrows : ∀ r ∈ rows, PassedBy s r)
    (hfull : rows.length = s.cap.trades.toNat) :
    ∀ x ∈ steps, ∀ e, x.execution = some e → x.st.isOk = false := by
  induction h with
  | start => simp
  | @event steps s₁ o ev st e h happ ih =>
    have hdays' := fun x hx => hdays x (List.mem_append_left _ hx)
    intro x hx y hy
    obtain hx | hx := List.mem_append.mp hx
    · exact ih hdays' x hx y hy
    · obtain rfl := List.mem_singleton.mp hx
      by_contra hok
      have hle := length_le_of_passedBy hs h hdays' hnodup hrows
      have hroom := room_of_executed (h.sound hs.sound) happ (Step.event_of_execution hy)
        (by simpa using hok)
      rw [h.cap hs.sound] at hroom
      omega
  | reload _ _ _ ih => exact ih hdays

/-- **What settlement passes by stays.** In every session along a calendar: once the window has left
the date of a trade that is not settled, the trade keeps its row in every state reached, with what
it was executed with, allocated or bought in at most, never settled; and once such trades take every
row of the table, no execution is accepted any more. -/
theorem passed_by_stays (cal : Calendar) {arena arena₀ : Arena} {pid : UInt16}
    {c : PartitionCapacity} {s₀ s s' : PartitionState}
    (hinit : blank.init arena pid c = .ok (true, s₀, arena₀)) {pre post : List Step}
    (hpre : Session s₀ pre s) (hpost : Session s post s')
    (hdays : ∀ x ∈ pre ++ post, ∀ e, LogRecord.event x.ev = some (.dayOpened e) →
      x.st.isOk = true → cal.IsWindow (newWindow e))
    {rows : List TradeRow} (hnodup : rows.Nodup) (hrows : ∀ r ∈ rows, PassedBy s r) :
    (∀ r ∈ rows, ∃ r', Remains s' r r') ∧ rows.length ≤ s'.trades.length ∧
      (rows.length = c.trades.toNat → ∀ x ∈ post, ∀ e, x.execution = some e →
        x.st.isOk = false) := by
  have hstart : Executions cal [] s₀ := by
    refine ⟨sound_init hinit, ?_, by simp, .nil⟩
    obtain ⟨-, -, slots, -, rfl⟩ := init_eq_ok hinit
    exact ⟨.inl ⟨rfl, rfl⟩, nofun⟩
  have hmid := executions_session hstart hpre fun x hx => hdays x (List.mem_append_left _ hx)
  have hs : Executions cal [] s := ⟨hmid.sound, hmid.dates, by simp, .nil⟩
  have hdays' := fun x hx => hdays x (List.mem_append_right pre hx)
  have hcap : s.cap = c := by
    rw [hpre.cap hstart.sound]
    obtain ⟨-, -, slots, -, rfl⟩ := init_eq_ok hinit
    rfl
  refine ⟨fun r hr => passedBy_session hs hpost hdays' (hrows r hr),
    length_le_of_passedBy hs hpost hdays' hnodup hrows, fun hfull => ?_⟩
  exact refused_of_passedBy hs hpost hdays' hnodup hrows (hcap.symm ▸ hfull)

/-- The first day whose window does not have the date of `boughtOne`. -/
def dayAfter : DayOpened := ⟨20260904, 20260903, 20260907, 20260908⟩

/-- Another purchase, two days after `dayAfter`. -/
def boughtLate : TradeExecuted := { boughtOne with tradeId := 2, settlementDate := 20260908 }

theorem passed_by_stays_one :
    ∃ s₀ arena₀ s s' pre post r, blank.init ⟨2 ^ 16, 0, false, false⟩ 1
        ⟨2, 2, 2, 1, 2, 2, 2, 2, 60⟩ = .ok (true, s₀, arena₀) ∧
      Session s₀ pre s ∧ Session s post s' ∧ PassedBy s r ∧
      post.map Step.st = [.fail .arenaExhausted] ∧ (∃ r', Remains s' r r') ∧
      ∀ x ∈ post, ∀ e, x.execution = some e → x.st.isOk = false := by
  have hinit : ∃ s₀ arena₀, blank.init ⟨2 ^ 16, 0, false, false⟩ 1
      ⟨2, 2, 2, 1, 2, 2, 2, 2, 60⟩ = .ok (true, s₀, arena₀) ∧ ∃ s r s', applyAll s₀
        (feed [.closingPriceSet quoted, .dayOpened firstDay, .tradeExecuted boughtOne,
          .dayOpened dayAfter]) = .ok ([.kOk, .kOk, .kOk, .kOk], s) ∧
        s.tradeOf 1 = some r ∧ r.tradeId = 1 ∧ r.state = TradeState.executed.code ∧
        r.settlementDate = 20260903 ∧ s.window = newWindow dayAfter ∧
        applyAll s (feed [.tradeExecuted boughtLate]) = .ok ([.fail .arenaExhausted], s') :=
    ⟨_, _, rfl, _, _, _, rfl, rfl, rfl, rfl, rfl, rfl, rfl⟩
  obtain ⟨s₀, arena₀, hinit, s, r, s', hrun, hrow, hid, hstate, hdate, hwin, hrun'⟩ := hinit
  obtain ⟨pre, hpre, hevs, -⟩ := session_of_applyAll hrun
  obtain ⟨post, hpost, hevs', hsts⟩ := session_of_applyAll hrun'
  -- the trade settles on the first day, and the window has moved past it
  have hpassed : PassedBy s r := by
    refine ⟨hid.symm ▸ hrow, by rw [hstate]; decide, ?_⟩
    rw [Behind, hwin, hdate]
    decide
  have hdays : ∀ x ∈ pre ++ post, ∀ e, LogRecord.event x.ev = some (.dayOpened e) →
      x.st.isOk = true → sixDays.IsWindow (newWindow e) := by
    intro x hx e he _
    obtain ⟨y, hy, heq⟩ : ∃ y ∈ [Event.closingPriceSet quoted, .dayOpened firstDay,
        .tradeExecuted boughtOne, .dayOpened dayAfter, .tradeExecuted boughtLate],
        LogRecord.event x.ev = some y := by
      have hmem : x.ev ∈ (pre ++ post).map Step.ev := List.mem_map_of_mem hx
      rw [List.map_append, hevs, hevs'] at hmem
      obtain hmem | hmem := List.mem_append.mp hmem
      · obtain ⟨y, hy, heq⟩ := event_of_mem_feed (by simp [Event.Fits]) hmem
        exact ⟨y, List.mem_append_left [_] hy, heq⟩
      · obtain ⟨y, hy, heq⟩ := event_of_mem_feed (by simp [Event.Fits]) hmem
        exact ⟨y, List.mem_append_right [_, _, _, _] hy, heq⟩
    obtain rfl := Option.some.inj (heq.symm.trans he)
    simp only [List.mem_cons, reduceCtorEq, Event.dayOpened.injEq, List.not_mem_nil, or_false,
      false_or] at hy
    obtain rfl | rfl := hy
    · exact ⟨0, rfl, rfl, rfl⟩
    · exact ⟨3, rfl, rfl, rfl⟩
  obtain ⟨hstays, -, hfull⟩ := passed_by_stays sixDays hinit hpre hpost hdays
    (List.nodup_singleton r) fun q hq => List.mem_singleton.mp hq ▸ hpassed
  exact ⟨s₀, arena₀, s, s', pre, post, r, hinit, hpre, hpost, hpassed, hsts,
    hstays r (List.mem_singleton_self r), hfull rfl⟩

end MotorRv
