import MotorRv.Base.Calendar
import MotorRv.Core.Rows
import MotorRv.Core.Session

/-!
# Exactly once

A corporate action or an income is refused when its key is in one of the two generations of its
set. A key stays in the generation it was put in until that generation is the older one and a whole
window has passed since the last rotation, so it is there for at least one window, however the
business days are spaced; and an image puts every key back into the generation it came from.

`Answered` is the specification of one event: if an event with a key is accepted, the key is put in,
and if it is answered `AlreadyApplied`, the set held the key. Whatever the answer, no other key is
put in, and only the opening of a day drops any, a whole generation at a time. `Retained` says where
a key is that was put in on a given day, with `Retained.step` moving it along an event, and
`Accounted` says that every key that is held was put in by an event of the session. Both survive a
reload, because agreeing states have the same members in each generation (`Retained.agree`).

The two kinds of keys, of actions and of incomes, go through the same lemmas; only the set in which
they are looked for is a parameter. Nothing is assumed of the spacing of the days but that each
opening is a date of the calendar, not before the one that is open.
-/

namespace MotorRv

open Lib PartitionState Apply

/-! ### Two generations -/

namespace TwoGenSet

variable {t : TwoGenSet}

theorem current_setGen (t : TwoGenSet) (g : Bool) (u : PairIndex) :
    (t.setGen g u).current = t.current := by
  unfold setGen
  split_ifs <;> rfl

theorem rotation_setGen (t : TwoGenSet) (g : Bool) (u : PairIndex) :
    (t.setGen g u).rotation = t.rotation := by
  unfold setGen
  split_ifs <;> rfl

/-- Setting one generation leaves the other. -/
theorem gen_setGen_of_ne (t : TwoGenSet) {g g' : Bool} (h : g' ≠ g) (u : PairIndex) :
    (t.setGen g u).gen g' = t.gen g' := by
  cases g <;> cases g' <;> first | exact absurd rfl h | rfl

/-- An insertion adds the pair to the current generation, and to nothing else. -/
theorem contains_insert {n : ℕ} (h : t.Sound n) {hi : UInt64} {lo : ℕ}
    (hins : (t.insert hi lo).1 = .added) :
    (t.insert hi lo).2.current = t.current ∧ (t.insert hi lo).2.rotation = t.rotation ∧
      ∀ g id row, PairIndex.contains ((t.insert hi lo).2.gen g) id row = true ↔
        PairIndex.contains (t.gen g) id row = true ∨ (g = t.current ∧ id = hi ∧ row = lo) := by
  have hnew : t.contains hi lo = false := by
    by_contra hc
    rw [TwoGenSet.insert, if_pos (by simpa using hc)] at hins
    cases hins
  simp only [TwoGenSet.insert, hnew, Bool.false_eq_true, if_false] at hins ⊢
  simp only [current_setGen, rotation_setGen, true_and]
  have hcur : OpenTable.find PairIndex.home (t.gen t.current) (hi, lo) = none := by
    simp only [TwoGenSet.contains, Bool.or_eq_false_iff, PairIndex.contains,
      Option.isSome_eq_false_iff, Option.isNone_iff_eq_none] at hnew
    exact hnew.1
  have hg := h.gen t.current
  have hlim := (slotCount_eq_some hg.slots).2.2
  have hroom : (t.gen t.current).size < loadLimit (t.gen t.current).slots.length := by
    by_contra hfull
    rw [PairIndex.insert, OpenTable.insert_full (by omega) hcur] at hins
    cases hins
  obtain ⟨u, hu, hwf, -, -, hperm⟩ := OpenTable.insert_added hg.wf hlim hroom hcur ()
  intro g id row
  rw [PairIndex.insert, hu]
  by_cases hgc : g = t.current
  · subst hgc
    simp only [gen_setGen, PairIndex.contains, OpenTable.find_of_perm hg.wf hwf hperm hcur]
    split_ifs with heq
    · simp [Prod.mk.inj heq]
    · have hne : ¬ (id = hi ∧ row = lo) := fun hh => heq (Prod.ext hh.1 hh.2)
      simp [hne]
  · simp [gen_setGen_of_ne t hgc, hgc]

/-- A rotation keeps the current generation as the other one; without one every key stays. -/
theorem maybeRotate_cases (t : TwoGenSet) (today : DateYmd) (windowDays : Int32) :
    (t.rotation = 0 ∧ t.maybeRotate today windowDays = { t with rotation := today }) ∨
      t.maybeRotate today windowDays = t ∨
      (windowDays.toInt ≤ dayIndex today - dayIndex t.rotation ∧
        (t.maybeRotate today windowDays).current = !t.current ∧
        (t.maybeRotate today windowDays).rotation = today ∧
        (t.maybeRotate today windowDays).gen t.current = t.gen t.current ∧
        (t.maybeRotate today windowDays).gen (!t.current) =
          PairIndex.clear (t.gen !t.current)) := by
  unfold maybeRotate
  split_ifs with h0 hlt
  · exact .inl ⟨h0, rfl⟩
  · exact .inr (.inl rfl)
  · have hne : t.current ≠ !t.current := by cases t.current <;> decide
    refine .inr (.inr ⟨by omega, rfl, rfl, ?_, ?_⟩)
    · exact gen_setGen_of_ne t hne _
    · exact gen_setGen t _ _

/-- A cleared generation has no key. -/
theorem contains_clear (t : PairIndex) (hi : UInt64) (lo : ℕ) :
    PairIndex.contains (PairIndex.clear t) hi lo = false := by
  rw [PairIndex.contains, PairIndex.clear, OpenTable.find_empty]
  rfl

/-- A set has the keys of both of its generations. -/
theorem contains_eq_true {hi : UInt64} {lo : ℕ} :
    t.contains hi lo = true ↔ ∃ g, PairIndex.contains (t.gen g) hi lo = true := by
  rw [TwoGenSet.contains, Bool.or_eq_true]
  constructor
  · rintro (h | h)
    · exact ⟨_, h⟩
    · exact ⟨_, h⟩
  · rintro ⟨g, h⟩
    by_cases hg : g = t.current
    · exact .inl (hg ▸ h)
    · obtain rfl : g = !t.current := by revert hg; cases g <;> cases t.current <;> simp
      exact .inr h

/-- A rotation adds no key. -/
theorem contains_of_maybeRotate {today : DateYmd} {windowDays : Int32} {hi : UInt64} {lo : ℕ}
    (h : (t.maybeRotate today windowDays).contains hi lo = true) : t.contains hi lo = true := by
  obtain ⟨-, heq⟩ | heq | ⟨-, -, -, hcur, hoth⟩ := t.maybeRotate_cases today windowDays
  · rw [heq] at h
    exact h
  · rw [heq] at h
    exact h
  · obtain ⟨g, hg⟩ := contains_eq_true.mp h
    by_cases hgc : g = t.current
    · rw [hgc, hcur] at hg
      exact contains_eq_true.mpr ⟨_, hg⟩
    · obtain rfl : g = !t.current := by revert hgc; cases g <;> cases t.current <;> simp
      rw [hoth, contains_clear] at hg
      cases hg

end TwoGenSet

/-! ### Keys of events -/

/-- The two kinds of events that carry a key. -/
inductive KeyKind
  | action
  | income
  deriving DecidableEq

/-- The set in which the keys of a kind are kept. -/
def PartitionState.keys (s : PartitionState) : KeyKind → TwoGenSet
  | .action => s.appliedActions
  | .income => s.appliedIncome

/-- The key of an event: the action and the account. -/
def Event.key : KeyKind → Event → Option (UInt64 × UInt64)
  | .action, .corporateActionApplied e => some (e.actionId, e.account)
  | .income, .dividendPaid e => some (e.actionId, e.account)
  | _, _ => none

variable {κ : KeyKind} {s s₁ s' : PartitionState} {key : UInt64 × UInt64}

/-- The key is in a generation, under the row of its account. -/
def InGen (κ : KeyKind) (s : PartitionState) (g : Bool) (key : UInt64 × UInt64) : Prop :=
  ∃ row, s.accountKeys[row]? = some key.2 ∧ PairIndex.contains ((s.keys κ).gen g) key.1 row = true

/-- The key is in one of the two generations. -/
def Remembers (κ : KeyKind) (s : PartitionState) (key : UInt64 × UInt64) : Prop :=
  ∃ row, s.accountKeys[row]? = some key.2 ∧ (s.keys κ).contains key.1 row = true

/-- A key is remembered in one of the generations. -/
theorem remembers_iff : Remembers κ s key ↔ ∃ g, InGen κ s g key := by
  simp only [Remembers, InGen, TwoGenSet.contains_eq_true]
  constructor
  · rintro ⟨row, hrow, g, hg⟩
    exact ⟨g, row, hrow, hg⟩
  · rintro ⟨g, row, hrow, hg⟩
    exact ⟨row, hrow, g, hg⟩

/-- Both sets of keys of a sound state are sound. -/
theorem PartitionState.Sound.keys (hs : s.Sound) (κ : KeyKind) :
    (s.keys κ).Sound s.cap.corporateActionsPerGen.toNat := by
  cases κ with
  | action => exact hs.actions
  | income => exact hs.income

/-! ### One step -/

/-- The key is put in, under the row of its account, on a day that goes on. -/
structure Put (κ : KeyKind) (s s' : PartitionState) (key : UInt64 × UInt64) (row : ℕ) : Prop where
  account : s'.accountKeys[row]? = some key.2
  added : ((s.keys κ).insert key.1 row).1 = .added
  set : s'.keys κ = ((s.keys κ).insert key.1 row).2
  date : s'.businessDate = s.businessDate

/-- What an event does to the keys of a kind and to the business date. -/
inductive KeyStep (κ : KeyKind) (s s' : PartitionState) : Option Event → Prop
  | same {x} (hset : s'.keys κ = s.keys κ) (hdate : s'.businessDate = s.businessDate) :
    KeyStep κ s s' x
  | inserted {x key row} (hkey : Event.key κ x = some key) (hput : Put κ s s' key row) :
    KeyStep κ s s' (some x)
  | opened {e} (hne : e.businessDate ≠ 0)
      (hnext : s.businessDate = 0 ∨ s.businessDate < e.businessDate)
      (hset : s'.keys κ = (s.keys κ).maybeRotate e.businessDate s.cap.idempotencyWindowDays)
      (hdate : s'.businessDate = e.businessDate) : KeyStep κ s s' (some (.dayOpened e))

/-- An accepted event with a key puts it in. -/
theorem Effect.put {x : Event} (h : Effect s x s') (hkey : x.key κ = some key) :
    ∃ row, Put κ s s' key row := by
  cases h with
  | corporateActionApplied hI hacct _ _ _ ha _ _ _ hins _ _ ha₁ ha' hlog =>
    cases κ with
    | income => cases hkey
    | action =>
      obtain rfl := Option.some.inj hkey
      have hkeys : s'.accountKeys = _ :=
        accountKeys_set ha ((keepsAccount_withholdTax _ _ _ ha').1.trans
        (keepsAccount_actCash _ _ _ _ ha₁).1) hlog.accounts
      obtain ⟨xs, n, d, rfl⟩ := hlog
      exact ⟨_, by rw [hkeys]; exact hacct, hins, rfl, hI.businessDate⟩
  | dividendPaid hI hacct _ _ hins ha ha' =>
    cases κ with
    | action => cases hkey
    | income =>
      obtain rfl := Option.some.inj hkey
      have hkeys := fun s' => @accountKeys_set _ s' _ _ _ ha
        (keepsAccount_creditIncome _ _ _ ha').1
      exact ⟨_, by rw [hkeys _ rfl]; exact hacct, hins, rfl, hI.businessDate⟩
  | _ => cases κ <;> cases hkey

/-- By cases on the effect: an action or an income puts its own key, the opening of a day may drop a
generation, and nothing else touches the sets. -/
theorem Effect.keyStep {x : Event} (h : Effect s x s') (κ : KeyKind) :
    KeyStep κ s s' (some x) := by
  rcases hkey : x.key κ with _ | key
  · cases h with
    -- only the opening of a day turns the generations
    | dayOpened hne hnext h =>
      have hopen := opened_of_openDay h
      refine .opened hne hnext ?_ hopen.businessDate
      cases κ with
      | action => exact hopen.appliedActions
      | income => exact hopen.appliedIncome
    | allocated hI _ _ _ _ _ _ _ _ _ _ _ _ _ _ _ _ _ _ _ _ hlink =>
      obtain ⟨-, -, hrest⟩ := relinkTrade_rows hlink
      refine .same ?_ (by rw [hrest]; exact hI.businessDate)
      rw [hrest]
      cases κ with
      | action => exact hI.appliedActions
      | income => exact hI.appliedIncome
    | batchNetted hI _ _ _ _ _ hlog =>
      obtain ⟨xs, n, d, rfl⟩ := hlog
      refine .same ?_ hI.businessDate
      cases κ with
      | action => exact hI.appliedActions
      | income => exact hI.appliedIncome
    | tradeSettled hI _ _ _ _ hlog =>
      obtain ⟨xs, n, d, rfl⟩ := hlog
      refine .same ?_ hI.businessDate
      cases κ with
      | action => exact hI.appliedActions
      | income => exact hI.appliedIncome
    | corporateActionApplied hI _ _ _ _ _ _ _ _ _ _ _ _ _ hlog =>
      obtain ⟨xs, n, d, rfl⟩ := hlog
      refine .same ?_ hI.businessDate
      cases κ with
      | action => cases hkey
      | income => exact hI.appliedIncome
    | dividendPaid hI =>
      refine .same ?_ hI.businessDate
      cases κ with
      | action => exact hI.appliedActions
      | income => cases hkey
    | custodyReconciled =>
      obtain ⟨xs, n, d, f, hrest⟩ := recordDivergences_rest _ _ s
      rw [hrest]
      exact .same (by cases κ <;> rfl) rfl
    | eodMarked => exact .same (by cases κ <;> rfl) rfl
    | tradeExecuted hI | allocatedInPlace hI | closingPriceSet hI =>
      refine .same ?_ hI.businessDate
      cases κ with
      | action => exact hI.appliedActions
      | income => exact hI.appliedIncome
  -- an accepted event with a key puts that key in and no other
  · obtain ⟨row, hput⟩ := h.put hkey
    exact .inserted hkey hput

/-- An event that ends without effect puts a key at most where it is turned down after it. -/
theorem Ended.keyStep {ev : EventView} {st : Status} (h : Ended s ev st s') (κ : KeyKind) :
    KeyStep κ s s' (LogRecord.event ev) := by
  cases h with
  | turned hkept =>
    refine .same ?_ hkept.businessDate
    cases κ with
    | action => exact hkept.appliedActions
    | income => exact hkept.appliedIncome
  | executedBefore | diverged => exact .same rfl rfl
  | actionBefore _ hI | incomeBefore _ hI =>
    refine .same ?_ hI.businessDate
    cases κ with
    | action => exact hI.appliedActions
    | income => exact hI.appliedIncome
  | refused hev hI hacct hins =>
    rw [hev]
    cases κ with
    | action => exact .inserted rfl ⟨hacct, hins, rfl, hI.businessDate⟩
    | income => exact .same hI.appliedIncome hI.businessDate
  | unpublished hev _ heff | corrupt hev _ heff => exact hev ▸ heff.keyStep κ
  | corruptMove hev heff =>
    rw [hev]
    cases heff.keyStep κ with
    | same hset hdate => exact .same hset hdate
    | inserted hkey => cases κ <;> cases hkey

/-- An event that ends without effect keeps the accounts. -/
theorem Ended.accountKeys_prefix {ev : EventView} {st : Status} (h : Ended s ev st s') :
    s.accountKeys <+: s'.accountKeys := by
  cases h with
  | turned hkept => exact hkept.accountKeys_prefix
  | executedBefore | diverged => exact List.prefix_rfl
  | actionBefore _ hI | incomeBefore _ hI | refused _ hI => exact hI.accountKeys_prefix
  | unpublished _ _ heff | corrupt _ _ heff => exact heff.accountKeys_prefix
  | corruptMove _ heff => exact heff.accountKeys_prefix

theorem Ended.cap {ev : EventView} {st : Status} (h : Ended s ev st s') : s'.cap = s.cap := by
  cases h with
  | turned hkept => exact hkept.cap
  | executedBefore | diverged => rfl
  | actionBefore _ hI | incomeBefore _ hI | refused _ hI => exact hI.cap
  | unpublished _ _ heff | corrupt _ _ heff => exact heff.cap
  | corruptMove _ heff => exact heff.cap

/-- What every event does to the keys, and what its answer says about them. -/
structure Answered (κ : KeyKind) (s s' : PartitionState) (x : Option Event) (st : Status) :
    Prop where
  step : KeyStep κ s s' x
  accounts : s.accountKeys <+: s'.accountKeys
  cap : s'.cap = s.cap
  new : st.isOk = true → ∀ key, x.bind (Event.key κ) = some key → ∃ row, Put κ s s' key row
  known : st.code = .alreadyApplied → ∀ key, x.bind (Event.key κ) = some key →
    ∃ row, s'.accountKeys[row]? = some key.2 ∧ (s.keys κ).contains key.1 row = true

/-- The answer of an event that ends without effect, against what the set held before. -/
theorem Ended.answered {ev : EventView} {st : Status} (h : Ended s ev st s') (κ : KeyKind) :
    Answered κ s s' (LogRecord.event ev) st where
  step := h.keyStep κ
  accounts := h.accountKeys_prefix
  cap := h.cap
  new hok := by
    rw [h.isOk_eq_false] at hok
    cases hok
  known hst key hkey := by
    have hplain : st.code.plain ≠ true := by rw [hst]; decide
    cases h with
    | turned _ hp => exact absurd hp hplain
    | refused _ _ _ _ hp => exact absurd hp hplain
    | executedBefore hev =>
      rw [hev] at hkey
      cases κ <;> cases hkey
    | actionBefore hev _ hacct hin =>
      rw [hev] at hkey
      cases κ with
      | income => cases hkey
      | action =>
        obtain rfl := Option.some.inj hkey
        exact ⟨_, hacct, hin⟩
    | incomeBefore hev _ hacct hin =>
      rw [hev] at hkey
      cases κ with
      | action => cases hkey
      | income =>
        obtain rfl := Option.some.inj hkey
        exact ⟨_, hacct, hin⟩
    | diverged | unpublished | corrupt | corruptMove => exact absurd hst (by simp [Status.fail])

/-- The answer of an accepted event, against what the set held before. -/
theorem Effect.answered {x : Event} (h : Effect s x s') (κ : KeyKind) :
    Answered κ s s' (some x) .kOk where
  step := h.keyStep κ
  accounts := h.accountKeys_prefix
  cap := h.cap
  new _ key hkey := h.put hkey
  known hst := by cases hst

theorem Answered.withLsn {x : Option Event} {st : Status} (h : Answered κ s s' x st) (n : UInt64) :
    Answered κ s { s' with appliedLsn := n } x st := by
  obtain ⟨step, haccounts, hcap, hnew, hknown⟩ := h
  have hput : ∀ {key row}, Put κ s s' key row → Put κ s { s' with appliedLsn := n } key row :=
    fun h => ⟨h.account, h.added, h.set, h.date⟩
  refine ⟨?_, haccounts, hcap, fun hok key hkey => (hnew hok key hkey).imp fun _ h => hput h,
    hknown⟩
  cases step with
  | same hset hdate => exact .same hset hdate
  | inserted hkey hp => exact .inserted hkey (hput hp)
  | opened hne hnext hset hdate => exact .opened hne hnext hset hdate

/-- Every event is answered by what the set held before it. -/
theorem answered_apply (hs : s.Sound) {o : Option Outbox} {ev : EventView} {st : Status}
    {e : Engine} (h : apply ⟨s, o⟩ ev = .ok (st, e)) (κ : KeyKind) :
    Answered κ s e.s (LogRecord.event ev) st := by
  obtain ⟨s', hs', ⟨rfl, x, hx, heff⟩ | hend⟩ := apply_cases hs h
  · rw [hs', hx]
    exact (heff.answered κ).withLsn _
  · rw [hs']
    exact (hend.answered κ).withLsn _

/-! ### Retention -/

/-- The business date is absent or a date of the calendar. -/
def Dated (s : PartitionState) : Prop := s.businessDate = 0 ∨ IsCalendarDate s.businessDate

/-- A key put in on the day `d` is in the current generation; or in the other one, and the last
rotation was not before `d`; or a window has passed. -/
structure Retained (κ : KeyKind) (key : UInt64 × UInt64) (d : DateYmd) (s : PartitionState) :
    Prop where
  since : dayIndex d ≤ dayIndex s.businessDate
  held : InGen κ s (s.keys κ).current key ∨
    (InGen κ s (!(s.keys κ).current) key ∧ dayIndex d ≤ dayIndex (s.keys κ).rotation) ∨
    s.cap.idempotencyWindowDays.toInt ≤ dayIndex s.businessDate - dayIndex d

theorem getElem?_of_isPrefix {α : Type} {xs ys : List α} (h : xs <+: ys) {i : ℕ} {x : α}
    (hx : xs[i]? = some x) : ys[i]? = some x := by
  obtain ⟨zs, rfl⟩ := h
  rw [List.getElem?_append_left (List.getElem?_eq_some_iff.mp hx).1, hx]

/-- A key stays in a generation that keeps its members, since the row of an account keeps its
document. -/
theorem InGen.mono {g g' : Bool} (h : InGen κ s g key) (hacc : s.accountKeys <+: s'.accountKeys)
    (hset : ∀ row, PairIndex.contains ((s.keys κ).gen g) key.1 row = true →
      PairIndex.contains ((s'.keys κ).gen g') key.1 row = true) : InGen κ s' g' key := by
  obtain ⟨row, hrow, hin⟩ := h
  exact ⟨row, getElem?_of_isPrefix hacc hrow, hset row hin⟩

/-- The opening of a day does not go back in the calendar. -/
theorem dayIndex_businessDate_le (hdate : Dated s) {d : DateYmd} (hd : IsCalendarDate d)
    (hnext : s.businessDate = 0 ∨ s.businessDate < d) : dayIndex s.businessDate ≤ dayIndex d := by
  rcases hdate with h0 | hcal
  · rw [h0]
    exact dayIndex_zero_le hd
  · rcases hnext with h0 | hlt
    · rw [h0]
      exact dayIndex_zero_le hd
    · exact dayIndex_le hcal hd (UInt32.le_of_lt hlt)

/-- **Retention, one step.** -/
theorem Retained.step {x : Option Event} {d : DateYmd} (h : Retained κ key d s) (hs : s.Sound)
    (hdate : Dated s) (hstep : KeyStep κ s s' x) (hacc : s.accountKeys <+: s'.accountKeys)
    (hcap : s'.cap = s.cap) (hday : ∀ e, x = some (.dayOpened e) → IsCalendarDate e.businessDate) :
    Retained κ key d s' := by
  obtain ⟨hsince, hheld⟩ := h
  cases hstep with
  | same hset hbd =>
    refine ⟨by rwa [hbd], ?_⟩
    rw [hset, hbd, hcap]
    refine hheld.imp ?_ (Or.imp_left (And.imp_left ?_)) <;>
      exact fun hin => hin.mono hacc fun row hrow => by rwa [hset]
  | inserted _ hput =>
    obtain ⟨-, hins, hset, hbd⟩ := hput
    obtain ⟨hcur, hrot, hmem⟩ := TwoGenSet.contains_insert (hs.keys κ) hins
    refine ⟨by rwa [hbd], ?_⟩
    rw [hset, hbd, hcap, hcur, hrot]
    refine hheld.imp ?_ (Or.imp_left (And.imp_left ?_)) <;>
      exact fun hin => hin.mono hacc fun row hrow => by rw [hset, hmem]; exact .inl hrow
  | @opened e hne hnext hset hbd =>
    have hle := dayIndex_businessDate_le hdate (hday e rfl) hnext
    refine ⟨by rw [hbd]; omega, ?_⟩
    rw [hset, hbd, hcap]
    obtain ⟨-, heq⟩ | heq | ⟨hwin, hcur, hrot, hkept, -⟩ :=
      (s.keys κ).maybeRotate_cases e.businessDate s.cap.idempotencyWindowDays
    · -- the first day only sets the date of the rotation
      have hgen : ∀ g, (s'.keys κ).gen g = (s.keys κ).gen g := fun g => by
        rw [hset, heq]
        rfl
      rw [heq]
      obtain hin | ⟨hin, -⟩ | hwin := hheld
      · exact .inl (hin.mono hacc fun row hrow => by rwa [hgen])
      · exact .inr (.inl ⟨hin.mono hacc fun row hrow => by rwa [hgen], hsince.trans hle⟩)
      · exact .inr (.inr (by omega))
    · rw [heq]
      obtain hin | ⟨hin, hle'⟩ | hwin := hheld
      · exact .inl (hin.mono hacc fun row hrow => by rwa [hset, heq])
      · exact .inr (.inl ⟨hin.mono hacc fun row hrow => by rwa [hset, heq], hle'⟩)
      · exact .inr (.inr (by omega))
    · rw [hcur, hrot, Bool.not_not]
      obtain hin | ⟨-, hle'⟩ | hwin' := hheld
      · -- the generation that was current is the other one now
        exact .inr (.inl ⟨hin.mono hacc fun row hrow => by rwa [hset, hkept], hsince.trans hle⟩)
      · exact .inr (.inr (by omega))
      · exact .inr (.inr (by omega))

/-- Loading puts every key back into its generation. -/
theorem Agree.contains_keys {t : PartitionState} (h : Agree s t) (g : Bool) (hi : UInt64)
    (lo : ℕ) : PairIndex.contains ((s.keys κ).gen g) hi lo =
      PairIndex.contains ((t.keys κ).gen g) hi lo := by
  cases κ with
  | action => exact h.sameState.actions g hi lo
  | income => exact h.sameState.income g hi lo

/-- States that no event can tell apart retain the same keys. -/
theorem Retained.agree {t : PartitionState} {d : DateYmd} (h : Retained κ key d s)
    (hag : Agree s t) : Retained κ key d t := by
  have hsame := hag.sameState
  have hcur : (t.keys κ).current = (s.keys κ).current := by
    cases κ with
    | action => exact hsame.actionsCurrent.symm
    | income => exact hsame.incomeCurrent.symm
  have hrot : (t.keys κ).rotation = (s.keys κ).rotation := by
    cases κ with
    | action => exact hsame.actionsRotation.symm
    | income => exact hsame.incomeRotation.symm
  have hacc : s.accountKeys <+: t.accountKeys := by
    rw [accountKeys, accountKeys, hsame.accounts]
  refine ⟨hsame.businessDate ▸ h.since, ?_⟩
  rw [hcur, hrot, ← hsame.businessDate, ← hsame.cap]
  refine h.held.imp ?_ (Or.imp_left (And.imp_left ?_)) <;>
    exact fun hin => hin.mono hacc fun row hrow => by rwa [← hag.contains_keys]

/-! ### Putting a key in -/

/-- A key that is put was not remembered. -/
theorem Put.not_remembers {row : ℕ} (h : Put κ s s' key row) (hs' : s'.Sound)
    (hacc : s.accountKeys <+: s'.accountKeys) : ¬ Remembers κ s key := by
  rintro ⟨row', hrow', hin⟩
  obtain rfl := hs'.account_inj (getElem?_of_isPrefix hacc hrow') h.account
  have hadded := h.added
  rw [TwoGenSet.insert, if_pos hin] at hadded
  cases hadded

/-- A key that is put is remembered, in the current generation. -/
theorem Put.remembers {row : ℕ} (h : Put κ s s' key row) (hs : s.Sound) :
    InGen κ s' (s'.keys κ).current key := by
  obtain ⟨hcur, -, hmem⟩ := TwoGenSet.contains_insert (hs.keys κ) h.added
  refine ⟨row, h.account, ?_⟩
  rw [h.set, hmem, hcur]
  exact .inr ⟨rfl, rfl, rfl⟩

/-- A key that is put is retained from the business date on. -/
theorem Put.retained {row : ℕ} (h : Put κ s s' key row) (hs : s.Sound) :
    Retained κ key s.businessDate s' where
  since := by rw [h.date]
  held := .inl (h.remembers hs)

/-! ### Sessions -/

/-- The key of an event of a session. -/
def Step.keyOf (κ : KeyKind) (x : Step) : Option (UInt64 × UInt64) :=
  (LogRecord.event x.ev).bind (Event.key κ)

/-- The event put its key in. -/
def Step.Inserts (κ : KeyKind) (key : UInt64 × UInt64) (x : Step) : Prop :=
  x.keyOf κ = some key ∧ ¬ Remembers κ x.before key ∧ Remembers κ x.after key

/-- Every pair that is held belongs to an account, and an event of the session put it in. -/
def Accounted (κ : KeyKind) (steps : List Step) (s : PartitionState) : Prop :=
  ∀ id row, (s.keys κ).contains id row = true → ∃ doc, s.accountKeys[row]? = some doc ∧
    ∃ x ∈ steps, x.Inserts κ (id, doc)

/-- One more step: a pair that is held afterwards was held before, or this step put it in. -/
theorem Accounted.step {steps : List Step} (h : Accounted κ steps s) (hs : s.Sound)
    (hs' : s'.Sound) {ev : EventView} {st : Status}
    (hstep : Answered κ s s' (LogRecord.event ev) st) :
    Accounted κ (steps ++ [⟨s, ev, st, s'⟩]) s' := by
  obtain ⟨hkeys, hacc, -, -, -⟩ := hstep
  have hold : ∀ id row, (s.keys κ).contains id row = true → ∃ doc,
      s'.accountKeys[row]? = some doc ∧ ∃ x ∈ steps ++ [⟨s, ev, st, s'⟩],
        x.Inserts κ (id, doc) := by
    intro id row hin
    obtain ⟨doc, hdoc, x, hx, hins⟩ := h id row hin
    exact ⟨doc, getElem?_of_isPrefix hacc hdoc, x, List.mem_append_left _ hx, hins⟩
  intro id row hin
  generalize hx : LogRecord.event ev = x at hkeys
  cases hkeys with
  | same hset => exact hold id row (hset ▸ hin)
  | @inserted x key row' hkey hput =>
    obtain ⟨hcur, -, hmem⟩ := TwoGenSet.contains_insert (hs.keys κ) hput.added
    rw [hput.set, TwoGenSet.contains_eq_true] at hin
    obtain ⟨g, hg⟩ := hin
    obtain hg | ⟨-, rfl, rfl⟩ := (hmem g id row).mp hg
    · exact hold id row (TwoGenSet.contains_eq_true.mpr ⟨g, hg⟩)
    · refine ⟨key.2, hput.account, _, List.mem_append_right _ (List.mem_singleton_self _), ?_⟩
      refine ⟨by rw [Step.keyOf, hx]; exact hkey, hput.not_remembers hs' hacc, ?_⟩
      exact remembers_iff.mpr ⟨_, hput.remembers hs⟩
  | opened _ _ hset => exact hold id row (TwoGenSet.contains_of_maybeRotate (hset ▸ hin))

/-- The business date stays a date of the calendar when days are opened on such dates. -/
theorem Answered.dated {x : Option Event} {st : Status} (h : Answered κ s s' x st)
    (hdate : Dated s) (hday : ∀ e, x = some (.dayOpened e) → IsCalendarDate e.businessDate) :
    Dated s' := by
  unfold Dated
  cases h.step with
  | same _ hbd => rwa [hbd]
  | inserted _ hput => rwa [hput.date]
  | opened _ _ _ hbd => exact .inr (hbd ▸ hday _ rfl)

/-- What holds of a session, step after step. -/
structure Exactly (κ : KeyKind) (w : ℤ) (steps : List Step) (s : PartitionState) : Prop where
  sound : s.Sound
  dated : Dated s
  window : s.cap.idempotencyWindowDays.toInt = w
  accounted : Accounted κ steps s
  retained : ∀ x ∈ steps, ∀ key, x.keyOf κ = some key → x.st.isOk = true →
    Retained κ key x.before.businessDate s
  once : steps.Pairwise fun x y => ∀ key, x.keyOf κ = some key → y.keyOf κ = some key →
    x.st.isOk = true → y.st.isOk = true →
      w ≤ dayIndex y.before.businessDate - dayIndex x.before.businessDate
  known : ∀ (past : List Step) (y : Step) (rest : List Step), steps = past ++ y :: rest →
    y.st.code = .alreadyApplied → ∀ key, y.keyOf κ = some key → ∃ x ∈ past, x.Inserts κ key

/-- By induction on the session, along business dates of the calendar. -/
theorem exactly_session {w : ℤ} {s₀ : PartitionState} (hs₀ : Exactly κ w [] s₀) {steps : List Step}
    (h : Session s₀ steps s) (hdays : ∀ x ∈ steps, ∀ e, LogRecord.event x.ev = some (.dayOpened e) →
      IsCalendarDate e.businessDate) : Exactly κ w steps s := by
  induction h with
  | start => exact hs₀
  | @event steps s o ev st e _ happ ih =>
    obtain ⟨hs, hdated, hw, hacct, hret, honce, hknown⟩ :=
      ih fun x hx => hdays x (List.mem_append_left _ hx)
    have hday := hdays ⟨s, ev, st, e.s⟩ (List.mem_append_right _ (List.mem_singleton_self _))
    have hans := answered_apply hs happ κ
    have hs' := sound_apply hs happ
    refine ⟨hs', hans.dated hdated hday, hans.cap ▸ hw, hacct.step hs hs' hans, ?_, ?_, ?_⟩
    -- a key put in before moves along; that of the new event is put in by it
    · intro x hx key hkey hok
      obtain hx | hx := List.mem_append.mp hx
      · exact (hret x hx key hkey hok).step hs hdated hans.step hans.accounts hans.cap hday
      · obtain rfl := List.mem_singleton.mp hx
        obtain ⟨row, hput⟩ := hans.new hok key hkey
        exact hput.retained hs
    -- twice accepted, the key had left both generations, so a whole window passed
    · refine List.pairwise_append.mpr ⟨honce, List.pairwise_singleton _ _, ?_⟩
      intro x hx y hy key hkx hky hokx hoky
      obtain rfl := List.mem_singleton.mp hy
      obtain ⟨row, hput⟩ := hans.new hoky key hky
      have hnot := hput.not_remembers hs' hans.accounts
      obtain hin | ⟨hin, -⟩ | hwin := (hret x hx key hkx hokx).held
      · exact absurd (remembers_iff.mpr ⟨_, hin⟩) hnot
      · exact absurd (remembers_iff.mpr ⟨_, hin⟩) hnot
      · exact hw ▸ hwin
    -- answered as applied, the key was in the set, and the session put it there
    · intro past y rest heq hst key hkey
      rcases List.eq_nil_or_concat rest with rfl | ⟨rest', z, rfl⟩
      · obtain ⟨rfl, hy⟩ := List.append_inj' heq rfl
        obtain rfl := List.singleton_inj.mp hy
        obtain ⟨row, hrow, hin⟩ := hans.known hst key hkey
        obtain ⟨doc, hdoc, x, hx, hins⟩ := hacct _ _ hin
        obtain rfl := Option.some.inj ((getElem?_of_isPrefix hans.accounts hdoc).symm.trans hrow)
        exact ⟨x, hx, hins⟩
      · rw [List.concat_eq_append, ← List.cons_append, ← List.append_assoc] at heq
        exact hknown past y rest' (List.append_inj' heq rfl).1 hst key hkey
  | @reload steps s room image target arena arena' t _ hsave hload ih =>
    -- a reload keeps the members of each generation
    obtain ⟨hs, hdated, hw, hacct, hret, honce, hknown⟩ := ih hdays
    have hag := agree_of_load hs hsave hload
    have hsame := hag.sameState
    refine ⟨hag.sound hs, ?_, hsame.cap ▸ hw, ?_, fun x hx key hkey hok =>
      (hret x hx key hkey hok).agree hag, honce, hknown⟩
    · rw [Dated, ← hsame.businessDate]
      exact hdated
    · intro id row hin
      obtain ⟨g, hg⟩ := TwoGenSet.contains_eq_true.mp hin
      rw [← hag.contains_keys] at hg
      obtain ⟨doc, hdoc, hx⟩ := hacct id row (TwoGenSet.contains_eq_true.mpr ⟨g, hg⟩)
      exact ⟨doc, by rwa [accountKeys, ← hsame.accounts], hx⟩

/-- A freshly initialised state has seen nothing. -/
theorem exactly_init {arena arena₀ : Arena} {pid : UInt16} {c : PartitionCapacity}
    {s₀ : PartitionState} (h : blank.init arena pid c = .ok (true, s₀, arena₀)) (κ : KeyKind) :
    Exactly κ c.idempotencyWindowDays.toInt [] s₀ := by
  have hs := sound_init h
  obtain ⟨-, -, slots, -, rfl⟩ := init_eq_ok h
  refine ⟨hs, .inl rfl, rfl, fun id row hin => ?_, by simp, .nil, by simp⟩
  have hempty : ∀ n, PairIndex.contains (OpenTable.empty n) id row = false := fun n => by
    rw [PairIndex.contains, OpenTable.find_empty]
    rfl
  obtain ⟨g, hg⟩ := TwoGenSet.contains_eq_true.mp hin
  cases κ <;> cases g <;> exact absurd hg (by rw [Bool.not_eq_true]; exact hempty _)

/-- **Exactly once within the window.** In a session whose days are dates of the calendar, saved
and loaded anywhere, two accepted events of a kind with one key are at least a window apart; and an
event is found applied before only if an earlier one of its kind put its key in. -/
theorem exactly_once {arena arena₀ : Arena} {pid : UInt16} {c : PartitionCapacity}
    {s₀ s : PartitionState} (hinit : blank.init arena pid c = .ok (true, s₀, arena₀))
    {steps : List Step} (h : Session s₀ steps s)
    (hdays : ∀ x ∈ steps, ∀ e, LogRecord.event x.ev = some (.dayOpened e) →
      IsCalendarDate e.businessDate) (κ : KeyKind) :
    (steps.Pairwise fun x y => ∀ key, x.keyOf κ = some key → y.keyOf κ = some key →
      x.st.isOk = true → y.st.isOk = true → c.idempotencyWindowDays.toInt ≤
        dayIndex y.before.businessDate - dayIndex x.before.businessDate) ∧
      ∀ (past : List Step) (y : Step) (rest : List Step), steps = past ++ y :: rest →
        y.st.code = .alreadyApplied → ∀ key, y.keyOf κ = some key →
          ∃ x ∈ past, x.Inserts κ key :=
  have hall := exactly_session (exactly_init hinit κ) h hdays
  ⟨hall.once, hall.known⟩

/-- An income of one unit, accrued for a new account. -/
def incomeOfOne : EventView where
  lsn := 1
  tsNs := 0
  tmpl := 7
  payload := List.replicate 32 0 ++ 1 :: List.replicate 15 0 ++
    1 :: List.replicate 20 0 ++ [1, 0, 0]

/-- An income sent twice: the second time an earlier event put its key in. -/
theorem exactly_once_income :
    ∃ s₀ arena₀ e₁ e₂, blank.init ⟨2 ^ 16, 0, false, false⟩ 1 ⟨2, 2, 2, 2, 2, 2, 2, 2, 60⟩ =
        .ok (true, s₀, arena₀) ∧ apply ⟨s₀, none⟩ incomeOfOne = .ok (.kOk, e₁) ∧
      apply ⟨e₁.s, none⟩ incomeOfOne = .ok (.fail .alreadyApplied 0, e₂) ∧
      ∃ x ∈ [(⟨s₀, incomeOfOne, .kOk, e₁.s⟩ : Step)], x.Inserts .income (0, 0) := by
  refine ⟨_, _, _, _, rfl, rfl, rfl, (exactly_once
    (show blank.init ⟨2 ^ 16, 0, false, false⟩ 1 ⟨2, 2, 2, 2, 2, 2, 2, 2, 60⟩ = .ok (true, _, _)
      from rfl)
    ((Session.start.event (show apply ⟨_, none⟩ incomeOfOne = .ok (_, _) from rfl)).event
      (show apply ⟨_, none⟩ incomeOfOne = .ok (_, _) from rfl)) ?_ .income).2 _ _ [] rfl rfl (0,
        0) rfl⟩
  intro x hx e he
  simp only [List.nil_append, List.cons_append, List.mem_cons, List.not_mem_nil, or_false] at hx
  rcases hx with rfl | rfl <;> cases he

end MotorRv
