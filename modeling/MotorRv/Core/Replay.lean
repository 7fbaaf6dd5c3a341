import MotorRv.Codec.Encode
import MotorRv.Core.ImageRoundTrip

/-!
# Live run and replay

A live run applies events with an outbox, which its reader may have drained in between; a replay
applies them with none. Cut anywhere, saved, loaded elsewhere and replayed from there, a run
answers every event the same and ends in the same state.

`SameState` lists what equality up to the slots of the tables means: every row with its links, every
counter and flag, the answers of every index, the members of both generations of the idempotency
sets. It follows from agreement, which is the relation that `apply` keeps (`Agree.applyAll`).

The live run may find its outbox in any condition before each event, except that an event whose
output does not fit is fatal, and runs with a fatal answer are excluded: the partition stops there.
The image may be cut after any number of events and loaded over any state into any arena with room.
-/

namespace MotorRv

open Lib PartitionState

/-- Apply events one after another, each with the outbox found at that moment. -/
def applyAll : PartitionState → List (EventView × Option Outbox) →
    Exec (List Status × PartitionState)
  | s, [] => .ok ([], s)
  | s, (ev, o) :: evs => do
    let (st, e) ← apply ⟨s, o⟩ ev
    let (sts, s') ← applyAll e.s evs
    .ok (st :: sts, s')

/-- The events as the partition processes them. -/
def live (evs : List (EventView × Outbox)) : List (EventView × Option Outbox) :=
  evs.map fun x => (x.1, some x.2)

/-- The same events as a recovery processes them. -/
def replayed (evs : List (EventView × Outbox)) : List (EventView × Option Outbox) :=
  evs.map fun x => (x.1, none)

/-- Equality of states up to the slots of their tables: every row of every table, with the links
of the lists of trades; counters, dates and flags; the exception records; the answers of the
indexes; the members of each generation of the idempotency sets. -/
structure SameState (s t : PartitionState) : Prop where
  id : s.id = t.id
  cap : s.cap = t.cap
  businessDate : s.businessDate = t.businessDate
  prevBusinessDate : s.prevBusinessDate = t.prevBusinessDate
  window : s.window = t.window
  appliedLsn : s.appliedLsn = t.appliedLsn
  custody : s.custody = t.custody
  accounts : s.accounts = t.accounts
  instruments : s.instruments = t.instruments
  trades : s.trades = t.trades
  findAccount : ∀ k, s.accountIndex.find k = t.accountIndex.find k
  findPosition : ∀ k, s.positionIndex.find k = t.positionIndex.find k
  findInstrument : ∀ k, s.instrumentIndex.find k = t.instrumentIndex.find k
  findTrade : ∀ k, s.tradeIndex.find k = t.tradeIndex.find k
  actions : ∀ g hi lo, PairIndex.contains (s.appliedActions.gen g) hi lo =
    PairIndex.contains (t.appliedActions.gen g) hi lo
  actionsCurrent : s.appliedActions.current = t.appliedActions.current
  actionsRotation : s.appliedActions.rotation = t.appliedActions.rotation
  income : ∀ g hi lo, PairIndex.contains (s.appliedIncome.gen g) hi lo =
    PairIndex.contains (t.appliedIncome.gen g) hi lo
  incomeCurrent : s.appliedIncome.current = t.appliedIncome.current
  incomeRotation : s.appliedIncome.rotation = t.appliedIncome.rotation
  exceptions : s.exceptions.take (keptExceptions s) = t.exceptions.take (keptExceptions t)
  exceptionCount : s.exceptionCount = t.exceptionCount
  exceptionDropped : s.exceptionDropped = t.exceptionDropped
  flags : s.flags = t.flags

theorem Agree.sameState {s t : PartitionState} (h : Agree s t) : SameState s t := by
  obtain ⟨c, rfl, hsame⟩ := h
  have hset : ∀ {a b : TwoGenSet}, a.Equiv b → ∀ g hi lo,
      PairIndex.contains (a.gen g) hi lo = PairIndex.contains (b.gen g) hi lo := by
    intro a b hab g hi lo
    rw [PairIndex.contains, PairIndex.contains, (hab.gen g).1.find]
  exact
    { id := rfl
      cap := rfl
      businessDate := rfl
      prevBusinessDate := rfl
      window := rfl
      appliedLsn := rfl
      custody := rfl
      accounts := rfl
      instruments := rfl
      trades := rfl
      findAccount := hsame.accountIndex.find
      findPosition := hsame.positionIndex.find
      findInstrument := hsame.instrumentIndex.find
      findTrade := hsame.tradeIndex.find
      actions := hset hsame.appliedActions
      actionsCurrent := hsame.appliedActions.current
      actionsRotation := hsame.appliedActions.rotation
      income := hset hsame.appliedIncome
      incomeCurrent := hsame.appliedIncome.current
      incomeRotation := hsame.appliedIncome.rotation
      exceptions := hsame.exceptions
      exceptionCount := rfl
      exceptionDropped := rfl
      flags := rfl }

/-! ### Runs -/

theorem applyAll_cons {s s' : PartitionState} {ev : EventView} {o : Option Outbox}
    {evs : List (EventView × Option Outbox)} {sts : List Status} :
    applyAll s ((ev, o) :: evs) = .ok (sts, s') ↔ ∃ st e sts', apply ⟨s, o⟩ ev = .ok (st, e) ∧
      applyAll e.s evs = .ok (sts', s') ∧ sts = st :: sts' := by
  simp only [applyAll, bind, except_bind_eq_ok]
  constructor
  · rintro ⟨⟨st, e⟩, h1, ⟨sts', s''⟩, h2, h3⟩
    simp only [Except.ok.injEq, Prod.mk.injEq] at h3
    obtain ⟨rfl, rfl⟩ := h3
    exact ⟨st, e, sts', h1, h2, rfl⟩
  · rintro ⟨st, e, sts', h1, h2, rfl⟩
    exact ⟨(st, e), h1, (sts', s'), h2, rfl⟩

/-- A run can be cut anywhere. -/
theorem applyAll_append {evs evs' : List (EventView × Option Outbox)} : ∀ {s s' : PartitionState}
    {sts : List Status}, applyAll s (evs ++ evs') = .ok (sts, s') →
      ∃ mid, applyAll s evs = .ok (sts.take evs.length, mid) ∧
        applyAll mid evs' = .ok (sts.drop evs.length, s') := by
  induction evs with
  | nil => exact fun h => ⟨_, rfl, h⟩
  | cons x evs ih =>
    intro s s' sts h
    obtain ⟨st, e, sts', h1, h2, rfl⟩ := applyAll_cons.mp h
    obtain ⟨mid, h3, h4⟩ := ih h2
    exact ⟨mid, applyAll_cons.mpr ⟨st, e, _, h1, h3, rfl⟩, h4⟩

/-- A run can be continued. -/
theorem applyAll_snoc {evs : List (EventView × Option Outbox)} : ∀ {s s' : PartitionState}
    {sts : List Status} {ev : EventView} {o : Option Outbox} {st : Status} {e : Engine},
    applyAll s evs = .ok (sts, s') → apply ⟨s', o⟩ ev = .ok (st, e) →
      applyAll s (evs ++ [(ev, o)]) = .ok (sts ++ [st], e.s) := by
  induction evs with
  | nil =>
    intro s s' sts ev o st e h happly
    obtain ⟨rfl, rfl⟩ := Prod.mk.inj (Except.ok.inj h)
    exact applyAll_cons.mpr ⟨st, e, [], happly, rfl, rfl⟩
  | cons x evs ih =>
    intro s s' sts ev o st e h happly
    obtain ⟨st', e', sts', h1, h2, rfl⟩ := applyAll_cons.mp h
    exact applyAll_cons.mpr ⟨st', e', _, h1, ih h2 happly, rfl⟩

theorem sound_applyAll {evs : List (EventView × Option Outbox)} : ∀ {s s' : PartitionState}
    {sts : List Status}, s.Sound → applyAll s evs = .ok (sts, s') → s'.Sound := by
  induction evs with
  | nil =>
    intro s s' sts hs h
    obtain ⟨-, rfl⟩ := Prod.mk.inj (Except.ok.inj h)
    exact hs
  | cons x evs ih =>
    intro s s' sts hs h
    obtain ⟨st, e, sts', h1, h2, -⟩ := applyAll_cons.mp h
    exact ih (sound_apply hs h1) h2

/-- A replay follows a live run that is not stopped, from any state that agrees. -/
theorem Agree.applyAll {evs : List (EventView × Outbox)} : ∀ {s t s' : PartitionState}
    {sts : List Status}, Agree s t → MotorRv.applyAll s (live evs) = .ok (sts, s') →
      (∀ st ∈ sts, st.isFatal = false) →
      ∃ t', MotorRv.applyAll t (replayed evs) = .ok (sts, t') ∧ Agree s' t' := by
  induction evs with
  | nil =>
    intro s t s' sts hA h _
    obtain ⟨rfl, rfl⟩ := Prod.mk.inj (Except.ok.inj h)
    exact ⟨t, rfl, hA⟩
  | cons x evs ih =>
    intro s t s' sts hA h hok
    obtain ⟨st, e, sts', h1, h2, rfl⟩ := applyAll_cons.mp h
    obtain ⟨t₁, h3, hA₁⟩ := hA.apply h1 (hok st (by simp))
    obtain ⟨t', h4, hA'⟩ := ih hA₁ h2 fun st' hst' => hok st' (by simp [hst'])
    exact ⟨t', applyAll_cons.mpr ⟨st, _, sts', h3, h4, rfl⟩, hA'⟩

/-- **Live run and image plus replay.** From an initialised state, with any capacities and any
events none of which is fatal, cut after `k` of them: the state reached there can be saved, the
image loads into any target with an arena that has room for the same capacities, and the rest of
the events, replayed without an outbox, answer the same statuses and end in the same state. -/
theorem replay_eq_live {arena arena₀ : Arena} {pid : UInt16} {c : PartitionCapacity}
    {s₀ : PartitionState} (hinit : blank.init arena pid c = .ok (true, s₀, arena₀))
    {evs : List (EventView × Outbox)} {sts : List Status} {s : PartitionState}
    (hlive : applyAll s₀ (live evs) = .ok (sts, s)) (hok : ∀ st ∈ sts, st.isFatal = false)
    {k : ℕ} (hk : k ≤ evs.length) :
    ∃ mid, applyAll s₀ (live (evs.take k)) = .ok (sts.take k, mid) ∧
      ∀ room target arena', stateImageBytes mid ≤ room → ArenaFits arena' mid.cap →
        ∃ image t arena'', saveStateImage mid room = .ok image ∧
          loadStateImage target arena' image = .ok (.kOk, t, arena'') ∧
          ∃ t', applyAll t (replayed (evs.drop k)) = .ok (sts.drop k, t') ∧ SameState s t' := by
  have hsplit : live evs = live (evs.take k) ++ live (evs.drop k) := by
    rw [live, live, live, ← List.map_append, List.take_append_drop]
  rw [hsplit] at hlive
  obtain ⟨mid, h1, h2⟩ := applyAll_append hlive
  rw [show (live (evs.take k)).length = k by simp [live, hk]] at h1 h2
  have hs : mid.Sound := sound_applyAll (sound_init hinit) h1
  refine ⟨mid, h1, fun room target arena' hroom hfits => ?_⟩
  obtain ⟨t, arena'', hload, hA⟩ := loadStateImage_imageOf hs target hfits
  obtain ⟨t', hrun, hA'⟩ := hA.applyAll h2 fun st hst => hok st (List.mem_of_mem_drop hst)
  exact ⟨imageOf mid, t, arena'', saveStateImage_eq hroom, hload, t', hrun, hA'.sameState⟩

/-! ### A day cut in the middle -/

/-- A run from the initial state and the same run cut short; its answers, the state at the cut and
the last state are checked together. -/
def cutChecked (c : PartitionCapacity) (evs : List (EventView × Outbox)) (k : ℕ)
    (R : List Status → PartitionState → PartitionState → Bool) : Exec Bool :=
  (blank.init ⟨2 ^ 16, 0, false, false⟩ 1 c).bind fun x =>
    (applyAll x.2.1 (live evs)).bind fun y =>
      (applyAll x.2.1 (live (evs.take k))).bind fun z => .ok (x.1 && R y.1 z.2 y.2)

theorem exists_of_cutChecked {c : PartitionCapacity} {evs : List (EventView × Outbox)} {k : ℕ}
    {R : List Status → PartitionState → PartitionState → Bool}
    (h : cutChecked c evs k R = .ok true) :
    ∃ s₀ arena₀ sts s sts' mid, blank.init ⟨2 ^ 16, 0, false, false⟩ 1 c = .ok (true, s₀, arena₀) ∧
      applyAll s₀ (live evs) = .ok (sts, s) ∧ applyAll s₀ (live (evs.take k)) = .ok (sts', mid) ∧
      R sts mid s = true := by
  obtain ⟨⟨ok, s₀, arena₀⟩, hinit, h⟩ := except_bind_eq_ok.mp h
  obtain ⟨⟨sts, s⟩, hrun, h⟩ := except_bind_eq_ok.mp h
  obtain ⟨⟨sts', mid⟩, hcut, h⟩ := except_bind_eq_ok.mp h
  obtain ⟨rfl, hR⟩ := Bool.and_eq_true_iff.mp (Except.ok.inj h)
  exact ⟨s₀, arena₀, sts, s, sts', mid, hinit, hrun, hcut, hR⟩

/-- An instrument, a day, a purchase and an income; then a purchase of another account. -/
def tradingDay : List (EventView × Outbox) :=
  [(⟨1, 0, 8, quoted.encode⟩, .fresh 16 256), (⟨2, 0, 1, firstDay.encode⟩, .fresh 16 256),
    (⟨3, 0, 2, boughtOne.encode⟩, .fresh 16 256),
    (⟨4, 0, 7, (⟨7, 1, 0, 0, 1, 0, 1, 1, 20260901, kStageAccrued⟩ : DividendPaid).encode⟩,
      .fresh 16 256),
    (⟨5, 0, 2, boughtOther.encode⟩, .fresh 16 256)]

/-- Cut behind the income: there are a trade, a position and a key in the image, and the purchase
that is replayed adds a trade and a position. -/
theorem replay_eq_live_tradingDay :
    ∃ s₀ arena₀ sts s mid, blank.init ⟨2 ^ 16, 0, false, false⟩ 1 ⟨3, 3, 3, 3, 2, 2, 2, 2, 60⟩ =
        .ok (true, s₀, arena₀) ∧
      applyAll s₀ (live tradingDay) = .ok (sts, s) ∧ s.trades.length = 2 ∧ s.custody.length = 2 ∧
      applyAll s₀ (live (tradingDay.take 4)) = .ok (sts.take 4, mid) ∧ mid.trades.length = 1 ∧
        mid.custody.length = 1 ∧ mid.appliedIncome.contains 7 0 = true ∧
      ∃ image t arena', saveStateImage mid (2 ^ 16) = .ok image ∧
        loadStateImage blank ⟨2 ^ 16, 0, false, false⟩ image = .ok (.kOk, t, arena') ∧
        ∃ t', applyAll t (replayed (tradingDay.drop 4)) = .ok (sts.drop 4, t') ∧
          SameState s t' := by
  obtain ⟨s₀, arena₀, sts, s, sts', mid, hinit, hrun, hcut, hend⟩ := @exists_of_cutChecked
    ⟨3, 3, 3, 3, 2, 2, 2, 2, 60⟩ tradingDay 4
    (fun sts mid s => decide ((∀ st ∈ sts, st.isFatal = false) ∧
      (s.trades.length = 2 ∧ s.custody.length = 2) ∧
      (mid.trades.length = 1 ∧ mid.custody.length = 1 ∧ mid.appliedIncome.contains 7 0 = true) ∧
      stateImageBytes mid ≤ 2 ^ 16 ∧ ArenaFits ⟨2 ^ 16, 0, false, false⟩ mid.cap))
        (by decide +kernel)
  obtain ⟨hok, ⟨htrades, hcustody⟩, ⟨hone, hpos, hkey⟩, hroom, hfits⟩ := of_decide_eq_true hend
  obtain ⟨mid', hmid, h⟩ := replay_eq_live hinit hrun hok (show 4 ≤ tradingDay.length by decide)
  obtain ⟨rfl, rfl⟩ := Prod.mk.inj (Except.ok.inj (hcut.symm.trans hmid))
  obtain ⟨image, t, arena', hsave, hload, hreplay⟩ :=
    h (2 ^ 16) blank ⟨2 ^ 16, 0, false, false⟩ hroom hfits
  exact ⟨s₀, arena₀, sts, s, mid, hinit, hrun, htrades, hcustody, hcut, hone, hpos, hkey, image, t,
    arena', hsave, hload, hreplay⟩

end MotorRv
