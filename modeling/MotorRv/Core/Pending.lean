import MotorRv.Core.Lifecycle
import MotorRv.Core.Rotation

/-!
# What is pending, by trades

What the pending trades of a kind add up to under a settlement date, and what each event does to
this sum when the feed is faithful: an allocation repeats the trade that it moves, and a settlement
carries the totals of the trades that it advances. The ledgers keep the same amounts in buckets of
their own.

`owed` adds up what the pending trades of a kind owe under a date, for any measure of a trade, so
that cash and quantities go through the same lemmas. Walks are the difficulty: a netting or a
settlement advances trades along the list of an account, so it has to be known that the walk reaches
every trade it covers, which is where the invariant of the lists enters (`advance_eq`).

A feed is faithful when its events repeat what the state knows (`Event.Faithful`); this is a
hypothesis on the events, checked against the state before each of them. `Dealt` is what such a run
keeps besides, and `apply_invariant` is the rule by which the two modules that follow lift a step
lemma about effects to every event and every answer.
-/

namespace MotorRv

open Lib PartitionState Apply

/-! ### Sums over trades -/

/-- The trade is executed, allocated or netted. -/
def TradeRow.isPending (r : TradeRow) : Bool :=
  decide (r.state = TradeState.executed.code ∨ r.state = TradeState.allocated.code ∨
    r.state = TradeState.netted.code)

/-- A kind of trades, by account, instrument and side. -/
abbrev TradeKind := ℕ → ℕ → UInt8 → Bool

/-- What a trade adds to the pending amount of a date. -/
def due (kind : TradeKind) (v : TradeRow → Raw) (d : DateYmd) (r : TradeRow) : ℤ :=
  if kind r.account r.instrument r.side = true ∧ r.isPending = true ∧ r.settlementDate = d then
    (v r).toInt
  else 0

/-- The sum over the pending trades of a kind with a settlement date. -/
def owed (kind : TradeKind) (v : TradeRow → Raw) (d : DateYmd) (rows : List TradeRow) : ℤ :=
  (rows.map (due kind v d)).sum

/-- The sum over given trades. -/
def sumOf (v : TradeRow → Raw) (rows : List TradeRow) : ℤ := (rows.map fun r => (v r).toInt).sum

/-! ### A faithful feed -/

namespace PartitionState

/-- The trades that a settlement is about. -/
def settledBy (s : PartitionState) (e : TradeSettled) : List TradeRow :=
  s.trades.filter fun r => decide (s.accountKeys[r.account]? = some e.account ∧
    s.instrumentKeys[r.instrument]? = some (instrumentKey e.instrument) ∧
    r.settlementDate = e.settlementDate ∧ r.side = e.side)

end PartitionState

/-- The state of the trades that an outcome advances. -/
def stateBefore : SettleOutcome → TradeState
  | .settled | .deliveryFailure => .netted
  | .boughtIn => .deliveryFailed

/-- Of the trades that a settlement is about, those that its outcome advances. -/
def TradeSettled.advanced (e : TradeSettled) (s : PartitionState) (o : SettleOutcome) :
    List TradeRow :=
  (s.settledBy e).filter fun r => decide (r.state = (stateBefore o).code)

/-- A settlement carries the totals of the trades that it advances, and none is left un-netted. -/
structure TradeSettled.Faithful (e : TradeSettled) (s : PartitionState) : Prop where
  qty : ∀ o, SettleOutcome.ofCode e.outcome = some o →
    e.qty.toInt = sumOf TradeRow.qty (e.advanced s o)
  cash : ∀ o, SettleOutcome.ofCode e.outcome = some o →
    e.cashAmount.toInt = sumOf TradeRow.cash (e.advanced s o)
  netted : ∀ r ∈ s.settledBy e,
    r.state ≠ TradeState.executed.code ∧ r.state ≠ TradeState.allocated.code

/-- An allocation to another account names the owner of the trade and repeats its terms. -/
def TradeAllocated.Faithful (e : TradeAllocated) (s : PartitionState) : Prop :=
  e.fromAccount ≠ e.toAccount → ∀ r, s.tradeOf e.tradeId = some r →
    s.accountKeys[r.account]? = some e.fromAccount ∧ e.cashAmount = r.cash ∧ e.side = r.side ∧
      e.settlementDate = r.settlementDate

/-- The event repeats what the state knows of its trades. -/
def Event.Faithful (s : PartitionState) : Event → Prop
  | .tradeAllocated e => e.Faithful s
  | .tradeSettled e => e.Faithful s
  | _ => True

/-- A faithful allocation takes the trade from the account that holds it. -/
theorem TradeAllocated.Faithful.not_misplaces {e : TradeAllocated} {s : PartitionState}
    (h : e.Faithful s) : ¬ e.Misplaces s := by
  rintro ⟨hne, r, k, c, hr, hother, -⟩
  exact hother (h hne r hr).1

/-! ### Changes of the table -/

section Rows

variable {kind : TradeKind} {v : TradeRow → Raw} {d : DateYmd} {rows rows' : List TradeRow}

/-- What the trades of two lists owe. -/
theorem owed_append (rows new : List TradeRow) :
    owed kind v d (rows ++ new) = owed kind v d rows + owed kind v d new := by
  rw [owed, List.map_append, List.sum_append]
  rfl

/-- Trades that owe nothing owe nothing together. -/
theorem owed_eq_zero (h : ∀ r ∈ rows, due kind v d r = 0) : owed kind v d rows = 0 := by
  rw [owed, List.map_congr_left h]
  simp

/-- One trade owes something else. -/
theorem owed_set {t : ℕ} {r : TradeRow} (hr : rows[t]? = some r) (r' : TradeRow) :
    owed kind v d (rows.set t r') =
      owed kind v d rows + (due kind v d r' - due kind v d r) :=
  sum_map_set _ hr r'

variable (hv : ∀ r, v r.fixed = v r)

include hv

/-- The columns that count. -/
theorem due_congr {r r' : TradeRow} (h : r'.fixed = r.fixed) (hacct : r'.account = r.account)
    (hp : r'.isPending = r.isPending) : due kind v d r' = due kind v d r := by
  have hval : v r' = v r := by rw [← hv r', h, hv r]
  have hinst : r'.instrument = r.instrument := congrArg (fun q => q.instrument) h
  have hside : r'.side = r.side := congrArg (fun q => q.side) h
  have hdate : r'.settlementDate = r.settlementDate := congrArg (fun q => q.settlementDate) h
  rw [due, due, hval, hinst, hside, hdate, hacct, hp]

/-- Links do not count. -/
theorem owed_of_unlinked (h : rows'.map TradeRow.unlinked = rows.map TradeRow.unlinked) :
    owed kind v d rows' = owed kind v d rows := by
  have hdue : ∀ r : TradeRow, due kind v d r.unlinked = due kind v d r := fun r =>
    due_congr hv rfl rfl rfl
  rw [owed, owed, map_of_unlinkedTrades _ hdue h]

/-- A trade whose state changes from pending to pending still counts. -/
theorem owed_setState {t : ℕ} {r : TradeRow} {b : UInt8} (hr : rows[t]? = some r)
    (hp : ({ r with state := b } : TradeRow).isPending = r.isPending) :
    owed kind v d (rows.set t { r with state := b }) = owed kind v d rows := by
  have hsame : due kind v d { r with state := b } = due kind v d r := due_congr hv rfl rfl hp
  rw [owed_set hr, hsame, sub_self, add_zero]

omit hv in
/-- The trades that are closed are settled. -/
theorem owed_filter_closes (w : SettlementWindow) (rows : List TradeRow) :
    owed kind v d (rows.filter fun t => !closes w t) = owed kind v d rows := by
  induction rows with
  | nil => rfl
  | cons r rows ih =>
    unfold owed at ih ⊢
    rcases hc : closes w r with _ | _
    · rw [List.filter_cons_of_pos (by simp [hc]), List.map_cons, List.map_cons, List.sum_cons,
        List.sum_cons, ih]
    · have hstate : r.state = TradeState.settled.code := by
        simp only [closes, Bool.and_eq_true, decide_eq_true_eq] at hc
        exact hc.1
      have hzero : due kind v d r = 0 := by
        rw [due, if_neg]
        rintro ⟨-, hp, -⟩
        rw [TradeRow.isPending, hstate] at hp
        cases hp
      rw [List.filter_cons_of_neg (by simp [hc]), ih, List.map_cons, List.sum_cons, hzero, zero_add]

end Rows

/-! ### Walks -/

/-- A walk over the list of an account reaches every trade that it covers. -/
theorem advance_eq {s : PartitionState} (hl : s.Linked) {acct : ℕ} {a : AccountRow}
    (ha : s.accounts[acct]? = some a) {covered : TradeRow → Bool}
    (hcov : ∀ r, covered r = true → r.account = acct) {g : TradeTrigger} {n : ℕ}
    {rows : List TradeRow}
    (h : advance covered g s.trades.length a.firstTrade s.trades = .ok (n, rows)) :
    rows = s.trades.map (stepped covered g) := by
  obtain ⟨is, hchain, hrows⟩ := advance_visits h
  obtain ⟨js, hchain', -, hmem⟩ := hl.chain ha
  obtain rfl := hchain.unique hchain'
  refine List.ext_getElem? fun i => ?_
  rw [hrows i, List.getElem?_map]
  cases hr : s.trades[i]? with
  | none => rfl
  | some r =>
    rw [Option.map_some, Option.map_some]
    split_ifs with hi
    · rfl
    · have hnot : covered r = false := by
        by_contra hc
        refine hi ((hmem i).mpr ?_)
        rw [ownerIn_eq hr, hcov r (Bool.eq_true_of_not_eq_false hc)]
      rw [stepped, if_neg (by simp [hnot])]

/-- What an outcome does to the pending amount of a trade that it advances. -/
def signOf : SettleOutcome → ℤ
  | .settled | .deliveryFailure => -1
  | .boughtIn => 1

section Walks

variable {kind : TradeKind} {v : TradeRow → Raw} {d : DateYmd} {covered : TradeRow → Bool}

/-- Netting leaves what is pending. -/
theorem owed_netted (hv : ∀ r, v r.fixed = v r) (rows : List TradeRow) :
    owed kind v d (rows.map (stepped covered .net)) = owed kind v d rows := by
  rw [owed, owed, List.map_map]
  congr 1
  refine List.map_congr_left fun r _ => ?_
  obtain hsame | ⟨a, ha, hnone, hnext⟩ := stepped_cases covered .net r
  · exact congrArg _ hsame
  · rw [Function.comp_apply, hnext]
    refine due_congr hv rfl rfl ?_
    simp only [TradeRow.isPending, ha]
    cases a <;> first | rfl | exact absurd rfl hnone

/-- What a trade owes depends on its state and on what is fixed of it. -/
theorem due_setState (hv : ∀ r, v r.fixed = v r) (r : TradeRow) (b : UInt8) :
    due kind v d { r with state := b } =
      if ({ r with state := b } : TradeRow).isPending = true ∧
          kind r.account r.instrument r.side = true ∧ r.settlementDate = d then (v r).toInt
      else 0 := by
  have hval : v { r with state := b } = v r := (hv { r with state := b }).symm.trans (hv r)
  unfold due
  rw [hval]
  refine if_congr ?_ rfl rfl
  tauto

/-- An outcome takes a trade from pending, or puts it back. -/
theorem due_settled (hv : ∀ r, v r.fixed = v r) (o : SettleOutcome) (r : TradeRow) :
    due kind v d (stepped covered (triggerOf o) r) = due kind v d r +
      if (covered r = true ∧ r.state = (stateBefore o).code) ∧
          kind r.account r.instrument r.side = true ∧ r.settlementDate = d then
        signOf o * (v r).toInt
      else 0 := by
  have hr : due kind v d r = _ := due_setState hv r r.state
  cases hc : covered r with
  | false =>
    rw [stepped, if_neg (by simp [hc]), if_neg (by simp), add_zero]
  | true =>
    cases ha : TradeState.ofCode r.state with
    | none =>
      have hne : r.state ≠ (stateBefore o).code := by
        intro heq
        rw [heq, TradeState.ofCode_code] at ha
        cases ha
      rw [stepped, if_pos hc, ha, if_neg fun h => hne h.1.2, add_zero]
    | some a =>
      have hcode : r.state = a.code := (TradeState.code_of_ofCode ha).symm
      have hstep : stepped covered (triggerOf o) r =
          if nextState a (triggerOf o) = .none then r
          else { r with state := (nextState a (triggerOf o)).code } := by
        simp only [stepped, hc, ha, if_true]
      rw [hstep, apply_ite (due kind v d), due_setState hv r (nextState a (triggerOf o)).code, hr]
      by_cases hQ : kind r.account r.instrument r.side = true ∧ r.settlementDate = d
      · simp only [TradeRow.isPending, hcode, eq_true hQ, and_true]
        -- the table, edge by edge
        cases a <;> cases o <;>
          simp [nextState, triggerOf, stateBefore, signOf, TradeState.code]
      · simp only [eq_false hQ, and_false, if_false, ite_self, add_zero]

/-- The totals of an outcome, for a kind and a date that all covered trades have. -/
theorem owed_settled (hv : ∀ r, v r.fixed = v r) {o : SettleOutcome} {rows : List TradeRow}
    (hcov : ∀ r ∈ rows, covered r = true →
      kind r.account r.instrument r.side = true ∧ r.settlementDate = d) :
    owed kind v d (rows.map (stepped covered (triggerOf o))) = owed kind v d rows +
      signOf o * sumOf v ((rows.filter covered).filter
        fun r => decide (r.state = (stateBefore o).code)) := by
  induction rows with
  | nil => simp [owed, sumOf]
  | cons r rows ih =>
    have ih := ih fun q hq => hcov q (List.mem_cons_of_mem r hq)
    unfold owed sumOf at ih ⊢
    rw [List.map_cons, List.map_cons, List.sum_cons, ih, due_settled hv, List.map_cons,
      List.sum_cons]
    cases hc : covered r with
    | false =>
      rw [List.filter_cons_of_neg (by simp [hc]), if_neg (by simp)]
      ring
    | true =>
      have hkind := hcov r List.mem_cons_self hc
      rw [List.filter_cons_of_pos hc]
      by_cases hstate : r.state = (stateBefore o).code
      · rw [if_pos ⟨⟨rfl, hstate⟩, hkind⟩, List.filter_cons_of_pos (by simpa using hstate),
          List.map_cons, List.sum_cons]
        ring
      · rw [if_neg fun h => hstate h.1.2, List.filter_cons_of_neg (by simpa using hstate)]
        ring

/-- A kind and a date that no covered trade has. -/
theorem owed_settled_other (hv : ∀ r, v r.fixed = v r) {o : SettleOutcome} {rows : List TradeRow}
    (hcov : ∀ r ∈ rows, covered r = true →
      ¬ (kind r.account r.instrument r.side = true ∧ r.settlementDate = d)) :
    owed kind v d (rows.map (stepped covered (triggerOf o))) = owed kind v d rows := by
  rw [owed, owed, List.map_map]
  congr 1
  refine List.map_congr_left fun r hr => ?_
  rw [Function.comp_apply, due_settled hv, if_neg fun h => hcov r hr h.1.1 h.2, add_zero]

end Walks

/-! ### One event -/

variable {s s₁ s' : PartitionState} {cal : Calendar}

/-- **The rule of events.** A property that effects establish, that rows without content leave, and
that does not tell an allocation that was only moved from one that was made, holds after every
event. -/
theorem apply_invariant {I : PartitionState → Prop} (hs : s.Sound) {o : Option Outbox}
    {ev : EventView} {st : Status} {e : Engine} (h : apply ⟨s, o⟩ ev = .ok (st, e))
    (hlsn : ∀ s n, I s → I { s with appliedLsn := n })
    (heff : ∀ x s', LogRecord.event ev = some x → classify st ≠ .rejected →
      st.isOk = true ∨ x.moves = true → Effect s x s' → I s')
    (hkept : ∀ t s', Kept { s with appliedActions := t } s' → I s')
    (hmove : ∀ (s' : PartitionState) t r, s'.trades[t]? = some r →
      r.state = TradeState.executed.code →
      I { s' with trades := s'.trades.set t { r with state := TradeState.allocated.code } } →
        I s') : I e.s := by
  obtain ⟨s', hs', hcases⟩ := apply_cases hs h
  rw [hs']
  refine hlsn s' _ ?_
  obtain ⟨rfl, x, hx, heffect⟩ | hend := hcases
  · exact heff x s' hx nofun (.inl rfl) heffect
  · cases hend with
    | turned hk => exact hkept _ _ hk
    | executedBefore | diverged => exact hkept _ _ (.refl s)
    | actionBefore _ hI | incomeBefore _ hI => exact hkept _ _ hI.kept
    | @refused e _ _ acct _ hI =>
      exact hkept (s.appliedActions.insert e.actionId acct).2 _
        { hI.kept with appliedActions := rfl }
    | unpublished hev hmoves heffect | corrupt hev hmoves heffect =>
      exact heff _ s' hev nofun (.inr hmoves) heffect
    | corruptMove hev heffect _ hr _ hstate =>
      exact hmove s' _ _ hr hstate (heff _ _ hev nofun (.inr rfl) heffect)

/-- The instruments of the trades have rows. -/
def PartitionState.Quoted (s : PartitionState) : Prop :=
  ∀ r ∈ s.trades.map TradeRow.fixed, r.instrument < s.instruments.length

/-- The instrument of every trade has a row. -/
theorem Effect.quoted {x : Event} (h : Effect s x s') (hq : s.Quoted) : s'.Quoted := by
  have hlen : s.instruments.length ≤ s'.instruments.length := by
    have := h.instrumentKeys_prefix.length_le
    rwa [instrumentKeys, instrumentKeys, List.length_map, List.length_map] at this
  have hold : ∀ r ∈ s.trades.map TradeRow.fixed, r.instrument < s'.instruments.length :=
    fun r hr => (hq r hr).trans_le hlen
  unfold PartitionState.Quoted
  cases @Effect.tradesStep _ _ _ h .kOk (.inl rfl) with
  | kept hrows =>
    rw [hrows]
    exact hold
  | @executed e _ _ _ _ _ _ _ hrows =>
    rw [hrows]
    cases h with
    | @tradeExecuted _ s₁ k gross fees cash i c c' a a' acct inst pos _ _ _ _ _ hi =>
      intro r hr
      obtain hr | hr := List.mem_append.mp hr
      · exact hold r hr
      · -- the row that the handler appends has the instrument that it found
        have hmem : r ∈ (s.trades ++ [newTrade e acct inst cash a'.firstTrade]).map
            TradeRow.fixed := by
          rw [show (s.trades ++ [newTrade e acct inst cash a'.firstTrade]).map TradeRow.fixed = _
            from hrows]
          exact List.mem_append_right _ hr
        rw [List.map_append] at hmem
        obtain hmem | hmem := List.mem_append.mp hmem
        · exact hold r hmem
        · rw [List.mem_singleton.mp hmem]
          exact (List.getElem?_eq_some_iff.mp hi).1
  | opened _ _ hrows =>
    rw [hrows]
    exact fun r hr => hold r ((List.filter_sublist.map TradeRow.fixed).subset hr)

/-- What holds of the trades in a run along a calendar with a faithful feed. -/
structure Dealt (cal : Calendar) (s : PartitionState) : Prop where
  listed : s.Listed
  dates : Dates cal s
  quoted : s.Quoted

/-- Every event on the calendar keeps the state dealt. -/
theorem Dealt.apply (hd : Dealt cal s) (hs : s.Sound) {o : Option Outbox} {ev : EventView}
    {st : Status} {e : Engine} (h : apply ⟨s, o⟩ ev = .ok (st, e))
    (hday : ∀ e, LogRecord.event ev = some (.dayOpened e) → st.isOk = true →
      cal.IsWindow (newWindow e))
    (hfaith : ∀ x, LogRecord.event ev = some x → classify st ≠ .rejected → x.Faithful s) :
    Dealt cal e.s where
  listed := listed_apply hs hd.listed h fun hst e he => (hfaith _ he hst).not_misplaces
  dates := (hd.dates.step (tradesStep_apply hs h) hday).1
  quoted := by
    refine apply_invariant hs h (fun _ _ hq => hq) (fun x s' _ _ _ heff => heff.quoted hd.quoted)
      (fun t s' hk => ?_) fun s' t r hr _ hq => ?_
    · obtain ⟨new, hnew, -⟩ := hk.instruments
      intro r hr
      rw [hk.trades] at hr
      rw [hnew, List.length_append]
      exact (hd.quoted r hr).trans_le (Nat.le_add_right _ _)
    · intro q hq'
      refine hq q ?_
      rwa [show (s'.trades.set t { r with state := TradeState.allocated.code }).map
        TradeRow.fixed = s'.trades.map TradeRow.fixed from map_set_of_eq hr rfl]

/-- States that no event can tell apart are dealt together. -/
theorem Dealt.agree (hd : Dealt cal s) (h : Agree s s') : Dealt cal s' := by
  have hsame := h.sameState
  refine ⟨h.listed hd.listed, ⟨?_, ?_⟩, ?_⟩
  · have := hd.dates.day
    rwa [OnDay, ← hsame.window, ← hsame.businessDate]
  · simpa only [DateOk, ← hsame.trades, ← hsame.window] using hd.dates.trades
  · have := hd.quoted
    rwa [PartitionState.Quoted, ← hsame.trades, ← hsame.instruments]

/-- A state just initialised is dealt. -/
theorem dealt_init {arena arena₀ : Arena} {pid : UInt16} {c : PartitionCapacity}
    (h : blank.init arena pid c = .ok (true, s, arena₀)) : Dealt cal s := by
  refine ⟨listed_init h, ?_, ?_⟩
  all_goals obtain ⟨-, -, slots, -, rfl⟩ := init_eq_ok h
  · refine ⟨.inl ⟨rfl, rfl⟩, fun r hr => ?_⟩
    cases hr
  · intro r hr
    cases hr

/-- The trades that a settlement is about are those that the handler covers. -/
theorem Dealt.settledBy_eq (hd : Dealt cal s) (hI : Interned s s₁) {e : TradeSettled}
    {acct inst pos : ℕ} {c : CustodyRow} {a : AccountRow} (hfind : Settles s₁ e acct inst pos c a) :
    s.settledBy e = s.trades.filter (covers e acct inst) := by
  refine List.filter_congr fun r hr => ?_
  have hacct : s.accountKeys[r.account]? = some e.account ↔ r.account = acct := by
    have hlt : r.account < s.accountKeys.length := by
      rw [accountKeys, List.length_map]
      exact hd.listed.linked.owners r hr
    constructor
    · exact fun hk => hI.sound.account_inj (hI.accountKey hk) hfind.account
    · intro heq
      obtain ⟨doc, hdoc⟩ : ∃ doc, s.accountKeys[r.account]? = some doc :=
        ⟨_, List.getElem?_eq_getElem hlt⟩
      have hk := hI.accountKey hdoc
      rwa [heq, hfind.account, ← hdoc, eq_comm] at hk
  have hinst : s.instrumentKeys[r.instrument]? = some (instrumentKey e.instrument) ↔
      r.instrument = inst := by
    have hlt : r.instrument < s.instrumentKeys.length := by
      rw [instrumentKeys, List.length_map]
      exact hd.quoted r.fixed (List.mem_map_of_mem hr)
    constructor
    · exact fun hk => hI.sound.instrument_inj (hI.instrumentKey hk) hfind.instrument
    · intro heq
      obtain ⟨key, hkey⟩ : ∃ key, s.instrumentKeys[r.instrument]? = some key :=
        ⟨_, List.getElem?_eq_getElem hlt⟩
      have hk := hI.instrumentKey hkey
      rwa [heq, hfind.instrument, ← hkey, eq_comm] at hk
  refine Bool.eq_iff_iff.mpr ?_
  simp only [covers, decide_eq_true_eq, Bool.and_eq_true, hacct, hinst, and_assoc]

/-- A business day between the ends of a window is in it. -/
theorem Calendar.IsWindow.mem {w : SettlementWindow} (h : cal.IsWindow w) {d : DateYmd}
    (hd : d ∈ cal.days) (hlow : w 0 ≤ d) (hhigh : d ≤ w 2) : ∃ k, w k = d := by
  obtain ⟨i, h0, h1, h2⟩ := h
  obtain ⟨m, hm⟩ := List.mem_iff_getElem?.mp hd
  have him := Calendar.index_le h0 hm hlow
  have hmi := Calendar.index_le hm h2 hhigh
  obtain rfl | rfl | rfl : m = i ∨ m = i + 1 ∨ m = i + 2 := by omega
  · exact ⟨0, Option.some.inj (h0.symm.trans hm)⟩
  · exact ⟨1, Option.some.inj (h1.symm.trans hm)⟩
  · exact ⟨2, Option.some.inj (h2.symm.trans hm)⟩

/-- Along a calendar, a trade with a date of the next window has a date of this one. -/
theorem Dealt.inWindow (hd : Dealt cal s) {w : SettlementWindow} (hw : cal.IsWindow w)
    (hlt : s.window 0 < w 0) {r : TradeRow} (hr : r ∈ s.trades) {k : Fin 3}
    (hk : w k = r.settlementDate) : ∃ j, s.window j = r.settlementDate := by
  obtain ⟨hday, hle2⟩ : DateOk cal s r.settlementDate :=
    hd.dates.trades r.fixed (List.mem_map_of_mem hr)
  have hlow : w 0 ≤ r.settlementDate := hk ▸ hw.zero_le k
  have hpos := UInt32.lt_of_lt_of_le hw.zero_lt hlow
  have hmem := hday.resolve_left fun hzero => UInt32.lt_irrefl _ (hzero ▸ hpos)
  obtain ⟨hzero, -⟩ | ⟨hwin, -⟩ := hd.dates.day
  · rw [hzero] at hle2
    exact absurd hpos (UInt32.not_lt.mpr hle2)
  · exact hwin.mem hmem (UInt32.le_of_lt (UInt32.lt_of_lt_of_le hlt hlow)) hle2

/-! ### What each event does to the sums -/

section Sums

variable {kind : TradeKind} {v : TradeRow → Raw} {d : DateYmd} (hv : ∀ r, v r.fixed = v r)

include hv

/-- The trades that the opening of a day drops owe nothing. -/
theorem owed_opened {e : DayOpened} (h : openDay e s = .ok s') :
    owed kind v d s'.trades = owed kind v d s.trades := by
  rw [owed_of_unlinked hv (opened_of_openDay h).trades, owed_filter_closes]

/-- A trade that is moved counts for its new account. -/
theorem owed_allocated {t de para : ℕ} {r r' : TradeRow} {s₂ : PartitionState}
    (hlink : relinkTrade de para t s₁ = .ok s₂) (hr : s₁.trades[t]? = some r)
    (hstate : r.state = TradeState.executed.code) (hr' : s₂.trades[t]? = some r') :
    owed kind v d (s₂.trades.set t { r' with state := TradeState.allocated.code }) =
      owed kind v d s₁.trades +
        (due kind v d { r with account := para } - due kind v d r) := by
  obtain ⟨-, ⟨q, hq, hrows⟩, -⟩ := relinkTrade_rows hlink
  obtain rfl := Option.some.inj (hr.symm.trans hq)
  have hstate' : r'.state = r.state := by
    have hcol := map_of_unlinkedTrades (·.state) (fun _ => rfl) hrows
    have hi := congrArg (fun l => l[t]?) hcol
    have hlt := (List.getElem?_eq_some_iff.mp hr).1
    simp only [List.getElem?_map, hr', List.getElem?_set_self hlt, Option.map_some,
      Option.some.injEq] at hi
    exact hi
  have hp : ({ r' with state := TradeState.allocated.code } : TradeRow).isPending =
      r'.isPending := by
    rw [TradeRow.isPending, TradeRow.isPending, hstate', hstate]
    rfl
  rw [owed_setState hv hr' hp, owed_of_unlinked hv hrows, owed_set hr]

/-- A netting moves trades between two states that both owe. -/
theorem owed_batchNetted {a : AccountRow} {acct n : ℕ} {date : DateYmd} {rows : List TradeRow}
    (hl : s.Linked) (hI : Interned s s₁) (ha : s₁.accounts[acct]? = some a)
    (hadv : advance (ofBatch acct date) .net s.trades.length a.firstTrade s.trades =
      .ok (n, rows)) : owed kind v d rows = owed kind v d s.trades := by
  rw [← hI.trades] at hadv
  have hrows := advance_eq (hl.kept hI.kept) ha
    (fun r hr => by
      simp only [ofBatch, Bool.and_eq_true, decide_eq_true_eq] at hr
      exact hr.1)
    hadv
  rw [hrows, hI.trades, owed_netted hv]

/-- A settlement takes the totals of its trades off the sum of their kind and date, or, at a
buy-in, puts them back; other sums stay. -/
theorem owed_tradeSettled (hd : Dealt cal s) (hI : Interned s s₁) {e : TradeSettled}
    {acct inst pos n : ℕ} {c : CustodyRow} {a : AccountRow} {o : SettleOutcome}
    {rows : List TradeRow} (hfind : Settles s₁ e acct inst pos c a)
    (hadv : advance (covers e acct inst) (triggerOf o) s.trades.length a.firstTrade s.trades =
      .ok (n, rows)) :
    ((kind acct inst e.side = true ∧ e.settlementDate = d) →
      owed kind v d rows = owed kind v d s.trades + signOf o * sumOf v (e.advanced s o)) ∧
    (¬ (kind acct inst e.side = true ∧ e.settlementDate = d) →
      owed kind v d rows = owed kind v d s.trades) := by
  have hcov : ∀ {r}, covers e acct inst r = true → r.account = acct ∧ r.instrument = inst ∧
      r.settlementDate = e.settlementDate ∧ r.side = e.side := by
    intro r hr
    simpa only [covers, Bool.and_eq_true, decide_eq_true_eq, and_assoc] using hr
  rw [← hI.trades] at hadv
  have hrows := advance_eq (hd.listed.linked.kept hI.kept) hfind.cash
    (fun r hr => (hcov hr).1) hadv
  rw [hrows, hI.trades, TradeSettled.advanced, hd.settledBy_eq hI hfind]
  refine ⟨fun hkind => owed_settled hv fun r _ hr => ?_,
    fun hkind => owed_settled_other hv fun r _ hr => ?_⟩
  · obtain ⟨h1, h2, h3, h4⟩ := hcov hr
    rw [h1, h2, h3, h4]
    exact hkind
  · obtain ⟨h1, h2, h3, h4⟩ := hcov hr
    rw [h1, h2, h3, h4]
    exact hkind

end Sums

/-- The trade that a faithful allocation moves is that of its terms. -/
theorem TradeAllocated.Faithful.terms {e : TradeAllocated} (hf : e.Faithful s) (hs : s.Sound)
    (hI : Interned s s₁) {r : TradeRow} {t de para : ℕ}
    (ht : s.tradeIndex.find e.tradeId = some t) (hr : s.trades[t]? = some r)
    (hfrom : s₁.accountKeys[de]? = some e.fromAccount)
    (hto : s₁.accountKeys[para]? = some e.toAccount) (hne : de ≠ para) :
    r.account = de ∧ e.cashAmount = r.cash ∧ e.side = r.side ∧
      e.settlementDate = r.settlementDate := by
  have hdocs : e.fromAccount ≠ e.toAccount := fun heq =>
    hne (hI.sound.account_inj (hfrom.trans (congrArg some heq)) hto)
  obtain ⟨hacct, hterms⟩ := hf hdocs r (tradeOf_eq hs ht hr)
  exact ⟨hI.sound.account_inj (hI.accountKey hacct) hfrom, hterms⟩

/-! ### Runs -/

/-- What is asked of an event that is not rejected. -/
def Step.Meets (P : PartitionState → Event → Prop) (x : Step) : Prop :=
  classify x.st ≠ .rejected → ∀ y, LogRecord.event x.ev = some y → P x.before y

/-- An accepted opening of a day has a window of the calendar. -/
def Step.OnCalendar (cal : Calendar) (x : Step) : Prop :=
  x.st.isOk = true → ∀ e, LogRecord.event x.ev = some (.dayOpened e) → cal.IsWindow (newWindow e)

section Decide

instance (e : TradeAllocated) (s : PartitionState) : Decidable (e.Faithful s) :=
  inferInstanceAs (Decidable (_ → ∀ r ∈ s.tradeOf e.tradeId, _))

instance (e : TradeSettled) (s : PartitionState) : Decidable (e.Faithful s) :=
  decidable_of_iff
    ((∀ o ∈ SettleOutcome.ofCode e.outcome, e.qty.toInt = sumOf TradeRow.qty (e.advanced s o)) ∧
      (∀ o ∈ SettleOutcome.ofCode e.outcome,
        e.cashAmount.toInt = sumOf TradeRow.cash (e.advanced s o)) ∧
      ∀ r ∈ s.settledBy e,
        r.state ≠ TradeState.executed.code ∧ r.state ≠ TradeState.allocated.code)
    ⟨fun h => ⟨h.1, h.2.1, h.2.2⟩, fun h => ⟨h.qty, h.cash, h.netted⟩⟩

instance (s : PartitionState) : ∀ x : Event, Decidable (x.Faithful s)
  | .tradeAllocated e => inferInstanceAs (Decidable (e.Faithful s))
  | .tradeSettled e => inferInstanceAs (Decidable (e.Faithful s))
  | .dayOpened _ | .tradeExecuted _ | .batchNetted _ | .corporateActionApplied _
  | .dividendPaid _ | .closingPriceSet _ | .custodyReconciled _ _ | .eodMarked _ =>
    inferInstanceAs (Decidable True)

instance (cal : Calendar) (w : SettlementWindow) : Decidable (cal.IsWindow w) :=
  decidable_of_iff (∃ i < cal.days.length, cal.days[i]? = some (w 0) ∧
    cal.days[i + 1]? = some (w 1) ∧ cal.days[i + 2]? = some (w 2))
    ⟨fun ⟨i, _, h⟩ => ⟨i, h⟩, fun ⟨i, h⟩ => ⟨i, (List.getElem?_eq_some_iff.mp h.1).1, h⟩⟩

instance (P : PartitionState → Event → Prop) [∀ s y, Decidable (P s y)] (x : Step) :
    Decidable (x.Meets P) :=
  inferInstanceAs (Decidable (_ → ∀ y ∈ LogRecord.event x.ev, P x.before y))

/-- The calendar, asked of any event. -/
def Event.OnCalendar (cal : Calendar) : Event → Prop
  | .dayOpened e => cal.IsWindow (newWindow e)
  | _ => True

instance (cal : Calendar) : ∀ x : Event, Decidable (x.OnCalendar cal)
  | .dayOpened e => inferInstanceAs (Decidable (cal.IsWindow (newWindow e)))
  | .tradeExecuted _ | .tradeAllocated _ | .tradeSettled _ | .batchNetted _
  | .corporateActionApplied _ | .dividendPaid _ | .closingPriceSet _ | .custodyReconciled _ _
  | .eodMarked _ => inferInstanceAs (Decidable True)

instance (cal : Calendar) (x : Step) : Decidable (x.OnCalendar cal) :=
  decidable_of_iff (x.st.isOk = true → ∀ y ∈ LogRecord.event x.ev, y.OnCalendar cal)
    ⟨fun h hok e he => h hok _ he, fun h hok y hy => by
      cases y with
      | dayOpened e => exact h hok e hy
      | _ => trivial⟩

end Decide

end MotorRv
