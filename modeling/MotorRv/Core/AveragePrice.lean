import MotorRv.Core.Interning
import MotorRv.Core.Splits

/-!
# The average price of purchases

A purchase rebuilds the cost of the position from its average price, rounded, adds its own cost and
rounds the quotient again. Each of the two roundings adds to the distance between what the price
stands for and what was paid: half a unit of money, and half a unit of price for each share. A
position that only settles purchases has the price that they have one after another.

`purchases` is the fold of the code's own rounding functions over a list of quantities and costs,
and `drift_step` the error of one turn: the cost is rebuilt with half a unit of money, the quotient
is rounded with half a unit of price for every share then held. Since the error of the price is
multiplied by the quantity at the next purchase, the errors are stated as distances between costs,
where they simply add up (`purchases_drift`); `heldSum` collects the shares.

The second half finds this fold in a session. `Tracks` follows one position through all events, and
an event either buys for it or leaves its price and quantity alone (`Event.OnlyBuys`). Settled
sales, buy-ins and corporate actions on the position are excluded, since they change the price or
what is held at it.
-/

namespace MotorRv

open Lib PartitionState Apply

/-- Purchases one after another, each a quantity and a cost: what is held and its average price. -/
def purchases : Raw → Raw → List (Raw × Raw) → Exec (Raw × Raw)
  | q, p, [] => .ok (q, p)
  | q, p, (dq, dc) :: xs => do
    let p' ← averagePriceHalfEven q p dq dc
    let q' ← Fixed.add q dq
    purchases q' p' xs

/-- All that is computed on the way fits in 64 bits: the cost rebuilt and the total, the quantity
and the price. -/
def PurchasesFit : Raw → Raw → List (Raw × Raw) → Prop
  | _, _, [] => True
  | q, p, (dq, dc) :: xs =>
    let cost := halfEven (q.toInt * p.toInt) kQtyPriceToMoney
    let qNew := q.toInt + dq.toInt
    let avg := halfEven ((cost + dc.toInt) * kQtyPriceToMoney) qNew
    Fits cost ∧ Fits (cost + dc.toInt) ∧ Fits qNew ∧ Fits avg ∧
      PurchasesFit (Int64.ofInt qNew) (Int64.ofInt avg) xs

/-- The quantity and the cost of purchases. -/
def boughtQty (xs : List (Raw × Raw)) : ℤ := (xs.map fun x => x.1.toInt).sum

def boughtCost (xs : List (Raw × Raw)) : ℤ := (xs.map fun x => x.2.toInt).sum

/-- The sum of the quantities held after each of the purchases, from `q` on. -/
def heldSum : ℤ → List (Raw × Raw) → ℤ
  | _, [] => 0
  | q, x :: xs => q + x.1.toInt + heldSum (q + x.1.toInt) xs

/-! ### One purchase -/

/-- The price after a purchase, when all that is computed fits. -/
theorem averagePriceHalfEven_of_fits {q p dq dc : Raw} (hpos : 0 < q.toInt + dq.toInt)
    (hcost : Fits (halfEven (q.toInt * p.toInt) kQtyPriceToMoney))
    (htotal : Fits (halfEven (q.toInt * p.toInt) kQtyPriceToMoney + dc.toInt))
    (hqty : Fits (q.toInt + dq.toInt))
    (havg : Fits (halfEven ((halfEven (q.toInt * p.toInt) kQtyPriceToMoney + dc.toInt) *
      kQtyPriceToMoney) (q.toInt + dq.toInt))) :
    averagePriceHalfEven q p dq dc = .ok (Int64.ofInt (halfEven
      ((halfEven (q.toInt * p.toInt) kQtyPriceToMoney + dc.toInt) * kQtyPriceToMoney)
      (q.toInt + dq.toInt))) := by
  have hscale : (Int64.ofInt kQtyPriceToMoney).toInt = kQtyPriceToMoney := by decide
  have hold : positionCostHalfEven q p =
      .ok (Int64.ofInt (halfEven (q.toInt * p.toInt) kQtyPriceToMoney)) :=
    mulDiv_of_fits (by decide) hcost
  have hsum : Fixed.add (Int64.ofInt (halfEven (q.toInt * p.toInt) kQtyPriceToMoney)) dc =
      .ok (Int64.ofInt (halfEven (q.toInt * p.toInt) kQtyPriceToMoney + dc.toInt)) := by
    rw [Fixed.add, toInt_of_fits hcost, checkedRaw_of_fits htotal]
  have hnew : Fixed.add q dq = .ok (Int64.ofInt (q.toInt + dq.toInt)) := checkedRaw_of_fits hqty
  have hdiv : mulDiv .halfEven
      (Int64.ofInt (halfEven (q.toInt * p.toInt) kQtyPriceToMoney + dc.toInt))
      (Int64.ofInt kQtyPriceToMoney) (q.toInt + dq.toInt) = .ok (Int64.ofInt (halfEven
        ((halfEven (q.toInt * p.toInt) kQtyPriceToMoney + dc.toInt) * kQtyPriceToMoney)
        (q.toInt + dq.toInt))) := by
    have hfit : Fits (halfEven ((Int64.ofInt (halfEven (q.toInt * p.toInt) kQtyPriceToMoney +
        dc.toInt)).toInt * (Int64.ofInt kQtyPriceToMoney).toInt) (q.toInt + dq.toInt)) := by
      rw [toInt_of_fits htotal, hscale]
      exact havg
    rw [mulDiv_of_fits hpos hfit, toInt_of_fits htotal, hscale]
  simp only [averagePriceHalfEven, hold, hsum, hnew, bind, Except.bind]
  rw [toInt_of_fits hqty, if_neg (by omega), hdiv]

/-- **The error of one purchase**: half a unit of money, and half a unit of price a share. -/
theorem drift_step {q p c dq dc cost avg : ℤ} (hpos : 0 < q + dq)
    (hcost : cost = halfEven (q * p) kQtyPriceToMoney)
    (havg : avg = halfEven ((cost + dc) * kQtyPriceToMoney) (q + dq)) :
    2 * |avg * (q + dq) - kQtyPriceToMoney * (c + dc)| ≤
      2 * |p * q - kQtyPriceToMoney * c| + kQtyPriceToMoney + (q + dq) := by
  have hone := two_mul_abs_halfEven_sub_le (n := q * p) (d := kQtyPriceToMoney) (by decide)
  have htwo := two_mul_abs_halfEven_sub_le (n := (cost + dc) * kQtyPriceToMoney) hpos
  rw [← hcost] at hone
  rw [← havg] at htwo
  -- the new error is the old one and the two roundings
  have hsplit : avg * (q + dq) - kQtyPriceToMoney * (c + dc) =
      (avg * (q + dq) - (cost + dc) * kQtyPriceToMoney) +
        ((cost * kQtyPriceToMoney - q * p) + (p * q - kQtyPriceToMoney * c)) := by ring
  have htri := abs_add_le (avg * (q + dq) - (cost + dc) * kQtyPriceToMoney)
    ((cost * kQtyPriceToMoney - q * p) + (p * q - kQtyPriceToMoney * c))
  have htri' := abs_add_le (cost * kQtyPriceToMoney - q * p) (p * q - kQtyPriceToMoney * c)
  rw [hsplit]
  linarith

/-! ### Any number of purchases -/

/-- From any position, the error grows by the budget of the purchases. -/
theorem purchases_drift {xs : List (Raw × Raw)} : ∀ {q p : Raw} (c : ℤ), 0 ≤ q.toInt →
    (∀ x ∈ xs, 0 < x.1.toInt) → PurchasesFit q p xs → ∃ q' p', purchases q p xs = .ok (q', p') ∧
      q'.toInt = q.toInt + boughtQty xs ∧
      2 * |p'.toInt * q'.toInt - kQtyPriceToMoney * (c + boughtCost xs)| ≤
        2 * |p.toInt * q.toInt - kQtyPriceToMoney * c| + xs.length * kQtyPriceToMoney +
          heldSum q.toInt xs := by
  induction xs with
  | nil =>
    intro q p c _ _ _
    exact ⟨q, p, rfl, by simp [boughtQty], by simp [boughtCost, heldSum]⟩
  | cons x xs ih =>
    intro q p c hq hpos hfit
    obtain ⟨dq, dc⟩ := x
    obtain ⟨hcost, htotal, hqty, havg, hrest⟩ := hfit
    obtain ⟨hdq, hpos⟩ := List.forall_mem_cons.mp hpos
    dsimp only at hdq
    have hnew : 0 < q.toInt + dq.toInt := by omega
    -- the first purchase rounds once; the rest starts from its price
    have hstep := averagePriceHalfEven_of_fits hnew hcost htotal hqty havg
    obtain ⟨q', p', hrun, hsum, hdrift⟩ := ih (c + dc.toInt) (q := Int64.ofInt (q.toInt + dq.toInt))
      (by rw [toInt_of_fits hqty]; exact hnew.le) hpos hrest
    refine ⟨q', p', ?_, ?_, ?_⟩
    · have hadd : Fixed.add q dq = .ok (Int64.ofInt (q.toInt + dq.toInt)) := checkedRaw_of_fits hqty
      simp only [purchases, hstep, hadd, bind, Except.bind]
      exact hrun
    · rw [hsum, toInt_of_fits hqty]
      simp only [boughtQty, List.map_cons, List.sum_cons]
      omega
    · rw [toInt_of_fits hqty, toInt_of_fits havg] at hdrift
      have hone := @drift_step q.toInt p.toInt c dq.toInt dc.toInt _ _ hnew rfl rfl
      have hassoc : c + boughtCost ((dq, dc) :: xs) = c + dc.toInt + boughtCost xs := by
        simp only [boughtCost, List.map_cons, List.sum_cons]
        omega
      rw [hassoc]
      simp only [heldSum, List.length_cons, Nat.cast_add, Nat.cast_one]
      linarith

/-- Purchases can be cut anywhere. -/
theorem purchases_append {xs ys : List (Raw × Raw)} : ∀ {q p q' p' : Raw},
    purchases q p xs = .ok (q', p') → purchases q p (xs ++ ys) = purchases q' p' ys := by
  induction xs with
  | nil =>
    intro q p q' p' h
    obtain ⟨rfl, rfl⟩ := Prod.mk.inj (Except.ok.inj h)
    rfl
  | cons x xs ih =>
    intro q p q' p' h
    simp only [purchases, bind, except_bind_eq_ok] at h
    obtain ⟨p₁, hp, q₁, hq, h⟩ := h
    simp only [List.cons_append, purchases, hp, hq, bind, Except.bind]
    exact ih h

/-! ### Purchases of a position -/

/-- The quantity and cost of a purchase that settles for an account and an instrument. -/
def Event.purchase (doc : UInt64) (id : UInt32) : Event → Option (Raw × Raw)
  | .tradeSettled e =>
    if e.account = doc ∧ e.instrument = id ∧ e.side = kSideBuy ∧
      SettleOutcome.ofCode e.outcome = some .settled then some (e.qty, e.costBasis) else none
  | _ => none

/-- The accepted purchase of a step. -/
def Step.purchase (doc : UInt64) (id : UInt32) (x : Step) : Option (Raw × Raw) :=
  if x.st.isOk then (LogRecord.event x.ev).bind (Event.purchase doc id) else none

/-- Of what settles for the account and the instrument, the event only settles purchases: it is no
sale, no buy-in and no corporate action of theirs. A delivery that fails brings nothing. -/
def Event.OnlyBuys (doc : UInt64) (id : UInt32) : Event → Prop
  | .tradeSettled e => e.account = doc → e.instrument = id →
      (e.side = kSideBuy ∧ SettleOutcome.ofCode e.outcome = some .settled) ∨
        SettleOutcome.ofCode e.outcome = some .deliveryFailure
  | .corporateActionApplied e => ¬ (e.account = doc ∧ e.instrument = id)
  | _ => True

/-- Every position of the account in row `a` and the instrument in row `i` stands where the
purchases have brought it; without one there were none. -/
structure Tracks (a i : ℕ) (xs : List (Raw × Raw)) (s : PartitionState) : Prop where
  row : ∀ (p : ℕ) (c : CustodyRow), s.custody[p]? = some c → c.account = a → c.instrument = i →
    ∃ q, purchases 0 0 xs = .ok (q, c.avgPrice) ∧ q.toInt = c.today
  absent : (∀ c ∈ s.custody, ¬ (c.account = a ∧ c.instrument = i)) → xs = []

/-- A settlement finds a position. -/
theorem Effect.settles {s s' : PartitionState} {e : TradeSettled}
    (h : Effect s (.tradeSettled e) s') :
    ∃ (p : ℕ) (c' : CustodyRow), s'.custody[p]? = some c' ∧
      s'.IsHeld c' e.account e.instrument := by
  cases h with
  | @tradeSettled _ s₁ acct inst pos c a outcome c' a' n rows _ hI hfind hout hrows _ hlog =>
    obtain ⟨hacct, hinst, hc, howner, ha⟩ := hfind
    have hown := keepsOwner_outcome hrows
    refine ⟨pos, c', ?_, ?_⟩
    · rw [hlog.custody]
      exact List.getElem?_set_self (List.getElem?_eq_some_iff.mp hc).1
    · refine (isHeld_congr (accountKeys_set ha (keepsAccount_outcome hrows).1 hlog.accounts)
        (by rw [instrumentKeys, hlog.instruments]; rfl)).mpr ?_
      refine (hI.sound.isHeld_iff hacct hinst).mpr ?_
      exact ⟨hown.1.trans howner.1, hown.2.trans howner.2⟩

section Track

variable {s t : PartitionState} {doc : UInt64} {id : UInt32} {a i : ℕ} {xs : List (Raw × Raw)}

/-- The row before a step, when the position stood where the purchases had brought it. -/
theorem Tracks.before (h : Tracks a i xs s) {s' : PartitionState} (hs' : s'.Sound)
    (hlen : s.custody.length ≤ s'.custody.length)
    (hown : ∀ (p : ℕ) (c' : CustodyRow), s'.custody[p]? = some c' →
      c'.account = (s.rowBefore p c').account ∧
      c'.instrument = (s.rowBefore p c').instrument) {p : ℕ} {c' : CustodyRow}
    (hc' : s'.custody[p]? = some c') (ha : c'.account = a) (hi : c'.instrument = i) :
    ∃ q, purchases 0 0 xs = .ok (q, (s.rowBefore p c').avgPrice) ∧
      q.toInt = (s.rowBefore p c').today := by
  rcases Nat.lt_or_ge p s.custody.length with hlt | hge
  · have hrow : s.custody[p]? = some (s.rowBefore p c') := by
      rw [PartitionState.rowBefore, List.getD_eq_getElem _ _ hlt, List.getElem?_eq_getElem hlt]
    obtain ⟨ho, ho'⟩ := hown p c' hc'
    exact h.row p _ hrow (ho.symm.trans ha) (ho'.symm.trans hi)
  · -- the position is new, so nothing was bought
    have hnil : xs = [] := by
      refine h.absent fun c hc hcc => ?_
      obtain ⟨hca, hci⟩ := hcc
      obtain ⟨n, hn⟩ := List.mem_iff_getElem?.mp hc
      have hnlt := (List.getElem?_eq_some_iff.mp hn).1
      have hrow := List.getElem?_eq_getElem (hnlt.trans_le hlen)
      obtain ⟨ho, ho'⟩ := hown n _ hrow
      rw [PartitionState.rowBefore, List.getD_eq_getElem?_getD, hn, Option.getD_some] at ho ho'
      have := hs'.position_inj hrow hc' (ho.trans (hca.trans ha.symm))
        (ho'.trans (hci.trans hi.symm))
      omega
    rw [PartitionState.rowBefore, List.getD_eq_getElem?_getD, List.getElem?_eq_none hge,
      Option.getD_none, hnil]
    exact ⟨0, rfl, by simp [CustodyRow.today, CustodyRow.cleared, slotSum]⟩

/-- Who holds a row is known from the keys that the table will have. -/
theorem named_of_isHeld {s' : PartitionState} (hkeys : KeepsKeys s' t)
    (hdoc : t.accountKeys[a]? = some doc) (hid : t.instrumentKeys[i]? = some (instrumentKey id))
    {c : CustodyRow} (ha : c.account = a) (hi : c.instrument = i) {doc' : UInt64} {id' : UInt32}
    (hheld : s'.IsHeld c doc' id') : doc' = doc ∧ id' = id := by
  constructor
  · obtain ⟨more, hmore⟩ := hkeys.accounts
    have hk : s'.accountKeys[c.account]? = some doc' := hheld.1
    have hlt := (List.getElem?_eq_some_iff.mp hk).1
    have hk' : t.accountKeys[c.account]? = some doc' := by
      rw [show t.accountKeys = s'.accountKeys ++ more from hmore.symm,
        List.getElem?_append_left hlt]
      exact hk
    rw [ha] at hk'
    exact Option.some.inj (hk'.symm.trans hdoc)
  · obtain ⟨more, hmore⟩ := hkeys.instruments
    have hk : (InternTable.instruments.keys s')[c.instrument]? = some id' := by
      have hk := hheld.2
      rw [instrumentKeys, List.getElem?_map, Option.map_eq_some_iff] at hk
      obtain ⟨r, hr, hkey⟩ := hk
      show (s'.instruments.map InstrumentRow.externalId)[c.instrument]? = _
      rw [List.getElem?_map, hr, Option.map_some, InternTable.instrumentKey_inj hkey]
    have hlt := (List.getElem?_eq_some_iff.mp hk).1
    have hk' : (InternTable.instruments.keys t)[c.instrument]? = some id' := by
      rw [← hmore, List.getElem?_append_left hlt]
      exact hk
    have hid' : (InternTable.instruments.keys t)[i]? = some id := by
      rw [instrumentKeys, List.getElem?_map, Option.map_eq_some_iff] at hid
      obtain ⟨r, hr, hkey⟩ := hid
      show (t.instruments.map InstrumentRow.externalId)[i]? = _
      rw [List.getElem?_map, hr, Option.map_some, InternTable.instrumentKey_inj hkey]
    rw [hi] at hk'
    exact Option.some.inj (hk'.symm.trans hid')

/-- What a purchase does to the price and the quantity of its position. -/
theorem settles_purchase {w : SettlementWindow} {e : TradeSettled} {c c' : CustodyRow}
    {r r' : AccountRow} (hside : e.side = kSideBuy) (h : Outcome w e c r .settled c' r') {q : Raw}
    (hrun : purchases 0 0 xs = .ok (q, c.avgPrice)) (hq : q.toInt = c.today) :
    ∃ q', purchases 0 0 (xs ++ [(e.qty, e.costBasis)]) = .ok (q', c'.avgPrice) ∧
      q'.toInt = c'.today := by
  cases h with
  | settled _ _ hc _ =>
    have hcount := (counters_settleCustody hc).1
    rw [signedQty, if_pos hside] at hcount
    simp only [settleCustody, if_pos hside, bind, except_bind_eq_ok] at hc
    obtain ⟨base, hbase, avg, havg, b, hb, av, hav, hc⟩ := hc
    obtain rfl := Except.ok.inj hc
    obtain rfl : q = base :=
      Int64.toInt_inj.mp (hq.trans (CustodyRow.custodyToday_eq_ok hbase).symm)
    obtain ⟨q', hadd⟩ : ∃ q', Fixed.add q e.qty = .ok q' := by
      simp only [averagePriceHalfEven, bind, except_bind_eq_ok] at havg
      obtain ⟨_, -, _, -, q', hadd, -⟩ := havg
      exact ⟨q', hadd⟩
    refine ⟨q', ?_, ?_⟩
    · rw [purchases_append hrun]
      simp only [purchases, havg, hadd, bind, Except.bind]
    · rw [Fixed.add_eq_ok hadd, hq, hcount]

/-- The rows of the holder are those in row `a` and row `i`. -/
theorem owner_of_isHeld {s' : PartitionState} (hkeys : KeepsKeys s' t) (ht : t.Sound)
    (hdoc : t.accountKeys[a]? = some doc) (hid : t.instrumentKeys[i]? = some (instrumentKey id))
    {c : CustodyRow} (hheld : s'.IsHeld c doc id) : c.account = a ∧ c.instrument = i := by
  constructor
  · obtain ⟨more, hmore⟩ := hkeys.accounts
    have hk : s'.accountKeys[c.account]? = some doc := hheld.1
    refine ht.account_inj ?_ hdoc
    rw [show t.accountKeys = s'.accountKeys ++ more from hmore.symm,
      List.getElem?_append_left (List.getElem?_eq_some_iff.mp hk).1]
    exact hk
  · have hk := hheld.2
    refine ht.instrument_inj ?_ hid
    have hmap : ∀ r : PartitionState,
        r.instrumentKeys = (InternTable.instruments.keys r).map instrumentKey := fun r => by
      simp [InternTable.instruments, instrumentKeys]
    obtain ⟨more, hmore⟩ := hkeys.instruments.map instrumentKey
    rw [← hmap, ← hmap] at hmore
    rw [← hmore, List.getElem?_append_left (List.getElem?_eq_some_iff.mp hk).1]
    exact hk

/-- An event that only buys, and is no purchase, leaves quantity and price of the position. -/
theorem Event.OnlyBuys.still {x : Event} (h : x.OnlyBuys doc id) (hno : x.purchase doc id = none)
    {s' : PartitionState} {c : CustodyRow}
    (hname : ∀ doc' id', s'.IsHeld c doc' id' → doc' = doc ∧ id' = id) :
    x.todayChange s' c = 0 ∧ ¬ x.MovesPrice s' c := by
  cases x with
  | tradeSettled e =>
    by_cases hheld : s'.IsHeld c e.account e.instrument
    · obtain ⟨hacct, hinst⟩ := hname _ _ hheld
      obtain ⟨hside, hout⟩ | hout := h hacct hinst
      · simp [Event.purchase, hacct, hinst, hside, hout] at hno
      · refine ⟨?_, fun hmoves => ?_⟩
        · simp [Event.todayChange, hheld, TradeSettled.todayChange, hout]
        · have := hout.symm.trans hmoves.2.2
          cases this
    · exact ⟨if_neg hheld, fun hmoves => hheld hmoves.1⟩
  | corporateActionApplied e =>
    have hheld : ¬ s'.IsHeld c e.account e.instrument := fun hheld => h (hname _ _ hheld)
    exact ⟨if_neg hheld, hheld⟩
  | _ => exact ⟨rfl, fun hmoves => hmoves⟩

/-- **One event** of a session whose keys are those of `t`. -/
theorem Tracks.apply (h : Tracks a i xs s) (hs : s.Sound) {o : Option Outbox} {ev : EventView}
    {st : Status} {e : Engine} (happ : MotorRv.apply ⟨s, o⟩ ev = .ok (st, e))
    (hst : st.isFatal = false) (hkeys : KeepsKeys e.s t) (ht : t.Sound)
    (hdoc : t.accountKeys[a]? = some doc) (hid : t.instrumentKeys[i]? = some (instrumentKey id))
    (hbuys : st.isOk = true → ∀ x, LogRecord.event ev = some x → x.OnlyBuys doc id) :
    Tracks a i (xs ++ (Step.purchase doc id ⟨s, ev, st, e.s⟩).toList) e.s := by
  have hs' := sound_apply hs happ
  obtain ⟨hlen, hrows⟩ := counters_apply hs happ hst
  have hbefore : ∀ (p : ℕ) (c' : CustodyRow), e.s.custody[p]? = some c' → c'.account = a →
      c'.instrument = i → ∃ q, purchases 0 0 xs = .ok (q, (s.rowBefore p c').avgPrice) ∧
        q.toInt = (s.rowBefore p c').today :=
    fun p c' hc' hca hci => h.before hs' hlen (fun p c' hc' => (hrows p c' hc').1) hc' hca hci
  -- a row of `s` is there still
  have hnone : (∀ c ∈ e.s.custody, ¬ (c.account = a ∧ c.instrument = i)) → xs = [] := by
    refine fun hno => h.absent fun c hc howner => ?_
    obtain ⟨p, hp⟩ := List.mem_iff_getElem?.mp hc
    have hlt := (List.getElem?_eq_some_iff.mp hp).1
    have hrow := List.getElem?_eq_getElem (hlt.trans_le hlen)
    obtain ⟨ho, ho'⟩ := (hrows p _ hrow).1
    rw [PartitionState.rowBefore, List.getD_eq_getElem?_getD, hp, Option.getD_some] at ho ho'
    exact hno _ (List.mem_of_getElem? hrow) ⟨ho.trans howner.1, ho'.trans howner.2⟩
  obtain ⟨s', heq, ⟨rfl, x, hx, heff⟩ | hend⟩ := apply_cases hs happ
  · have hpurchase : Step.purchase doc id ⟨s, ev, .kOk, e.s⟩ = x.purchase doc id := by
      simp only [Step.purchase, hx, Option.bind_some]
      rfl
    have hcustody : e.s.custody = s'.custody := by rw [heq]
    have hkeys' : KeepsKeys s' t := by
      rw [heq] at hkeys
      exact ⟨hkeys.accounts, hkeys.instruments, hkeys.positions⟩
    rw [hpurchase]
    rcases hcase : x.purchase doc id with _ | ⟨dq, dc⟩
    · rw [Option.toList_none, List.append_nil]
      refine ⟨fun p c' hc' hca hci => ?_, hnone⟩
      obtain ⟨q, hrun, hq⟩ := hbefore p c' hc' hca hci
      obtain ⟨ho, ho'⟩ := (hrows p c' hc').1
      rw [hcustody] at hc'
      have hstep := heff.custodyStep hs hc'
      obtain ⟨htoday, hprice⟩ := (hbuys rfl x hx).still hcase
        fun doc' id' (hheld : s'.IsHeld (s.rowBefore p c') doc' id') =>
          named_of_isHeld hkeys' hdoc hid (ho.symm.trans hca) (ho'.symm.trans hci) hheld
      refine ⟨q, ?_, ?_⟩
      · rw [hstep.avgPrice.resolve_right hprice]
        exact hrun
      · rw [hstep.counters.1, htoday, add_zero, hq]
    · -- a purchase that settles
      cases x with
      | tradeSettled b =>
        simp only [Event.purchase] at hcase
        split_ifs at hcase with hb
        obtain ⟨rfl, rfl⟩ := Prod.mk.inj (Option.some.inj hcase)
        obtain ⟨hbdoc, hbid, hside, hout⟩ := hb
        obtain ⟨n, d, hd, hheld⟩ := heff.settles
        rw [hbdoc, hbid] at hheld
        obtain ⟨hda, hdi⟩ := owner_of_isHeld hkeys' ht hdoc hid hheld
        refine ⟨fun p c' hc' hca hci => ?_, fun hno => ?_⟩
        · obtain ⟨q, hrun, hq⟩ := hbefore p c' hc' hca hci
          obtain ⟨ho, ho'⟩ := (hrows p c' hc').1
          rw [hcustody] at hc'
          have hstep := heff.custodyStep hs hc'
          have hnamed : s'.IsHeld (s.rowBefore p c') b.account b.instrument := by
            rw [hbdoc, hbid]
            obtain ⟨h1, h2⟩ := hheld
            refine ⟨?_, ?_⟩
            · rw [holderOf, ← ho, hca, ← hda]
              exact h1
            · rw [← ho', hci, ← hdi]
              exact h2
          generalize s.rowBefore p c' = c at hrun hq hstep hnamed
          cases hstep with
          | same hno => exact absurd hnamed hno
          | settled _ hout' hrow =>
            obtain rfl := Option.some.inj (hout'.symm.trans hout)
            exact settles_purchase hside hrow hrun hq
        · exact absurd ⟨hda, hdi⟩ (hno d (hcustody ▸ List.mem_of_getElem? hd))
      | _ => cases hcase
  · have hno : Step.purchase doc id ⟨s, ev, st, e.s⟩ = none := by
      rw [Step.purchase, hend.isOk_eq_false]
      rfl
    rw [hno, Option.toList_none, List.append_nil]
    refine ⟨fun p c' hc' hca hci => ?_, hnone⟩
    obtain ⟨r, hkept⟩ := hend.kept hst
    have hrow : s.rowBefore p c' = c' := by
      rw [heq] at hc'
      exact hkept.rowBefore_eq hc'
    have := hbefore p c' hc' hca hci
    rwa [hrow] at this

/-- **A session**, up to a state with the keys of `t`. -/
theorem Session.tracks {s₀ : PartitionState} {steps : List Step} (h : Session s₀ steps s)
    (hs₀ : s₀.Sound) (hempty : s₀.custody = []) (hkeys : KeepsKeys s t) (ht : t.Sound)
    (hdoc : t.accountKeys[a]? = some doc) (hid : t.instrumentKeys[i]? = some (instrumentKey id))
    (hok : ∀ x ∈ steps, x.st.isFatal = false)
    (hbuys : ∀ x ∈ steps, x.Meets fun _ y => y.OnlyBuys doc id) :
    Tracks a i (steps.filterMap (Step.purchase doc id)) s := by
  induction h with
  | start =>
    refine ⟨fun p c hc => ?_, fun _ => rfl⟩
    rw [hempty] at hc
    cases hc
  | @event steps s o ev st e h happ ih =>
    have hs := h.sound hs₀
    have hlast : (⟨s, ev, st, e.s⟩ : Step) ∈ steps ++ [⟨s, ev, st, e.s⟩] :=
      List.mem_append_right _ (List.mem_singleton_self _)
    have hpast := ih ((KeepsKeys.of_apply hs happ).trans hkeys)
      (fun x hx => hok x (List.mem_append_left _ hx))
      fun x hx => hbuys x (List.mem_append_left _ hx)
    have hstep := hpast.apply hs happ (hok _ hlast) hkeys ht hdoc hid fun hst x hx => by
      refine hbuys _ hlast ?_ x hx
      simp [classify, hst]
    rw [List.filterMap_append]
    rcases hp : Step.purchase doc id ⟨s, ev, st, e.s⟩ with _ | y
    · rw [hp] at hstep
      simpa [hp] using hstep
    · rw [hp] at hstep
      simpa [hp] using hstep
  | reload h hsave hload ih =>
    have hag := agree_of_load (h.sound hs₀) hsave hload
    have hpast := ih ((KeepsKeys.of_agree hag).1.trans hkeys) hok hbuys
    obtain ⟨c, rfl, -⟩ := hag
    exact ⟨hpast.row, hpast.absent⟩

end Track

/-! ### The budget -/

/-- The price `p` of `q` units after the purchases is off what was paid by half a unit of money for
each purchase and half a unit of price for each unit held after one, at most; both sides are
doubled. -/
def WithinBudget (xs : List (Raw × Raw)) (q : ℤ) (p : Raw) : Prop :=
  2 * |p.toInt * q - kQtyPriceToMoney * boughtCost xs| ≤
    xs.length * kQtyPriceToMoney + heldSum 0 xs

instance (xs : List (Raw × Raw)) (q : ℤ) (p : Raw) : Decidable (WithinBudget xs q p) :=
  inferInstanceAs (Decidable (_ ≤ _))

theorem purchases_withinBudget {xs : List (Raw × Raw)} (hpos : ∀ x ∈ xs, 0 < x.1.toInt)
    (hfit : PurchasesFit 0 0 xs) : ∃ q p, purchases 0 0 xs = .ok (q, p) ∧
      q.toInt = boughtQty xs ∧ WithinBudget xs q.toInt p := by
  obtain ⟨q, p, hrun, hq, hdrift⟩ := purchases_drift 0 (q := 0) (p := 0) le_rfl hpos hfit
  refine ⟨q, p, hrun, ?_, ?_⟩
  · simpa using hq
  · simpa [WithinBudget] using hdrift

/-- **The average price drifts within its budget**: after any purchases of an empty position whose
intermediate results fit, and for any position that a session has only settled purchases of. -/
theorem averagePrice_drift :
    (∀ xs : List (Raw × Raw), (∀ x ∈ xs, 0 < x.1.toInt ∧ 0 ≤ x.2.toInt) → PurchasesFit 0 0 xs →
      ∃ q p, purchases 0 0 xs = .ok (q, p) ∧ q.toInt = boughtQty xs ∧
        WithinBudget xs q.toInt p) ∧
    ∀ (arena arena₀ : Arena) (pid : UInt16) (cap : PartitionCapacity) (s₀ s : PartitionState)
      (steps : List Step) (doc : UInt64) (id : UInt32),
      blank.init arena pid cap = .ok (true, s₀, arena₀) → Session s₀ steps s →
      (∀ x ∈ steps, x.st.isFatal = false) →
      (∀ x ∈ steps, x.Meets fun _ y => y.OnlyBuys doc id) →
      (∀ x ∈ steps.filterMap (Step.purchase doc id), 0 < x.1.toInt ∧ 0 ≤ x.2.toInt) →
      PurchasesFit 0 0 (steps.filterMap (Step.purchase doc id)) →
      ∀ c ∈ s.custody, s.IsHeld c doc id →
        c.today = boughtQty (steps.filterMap (Step.purchase doc id)) ∧
          WithinBudget (steps.filterMap (Step.purchase doc id)) c.today c.avgPrice := by
  refine ⟨fun xs hpos hfit => purchases_withinBudget (fun x hx => (hpos x hx).1) hfit, ?_⟩
  intro arena arena₀ pid cap s₀ s steps doc id hinit h hok hbuys hpos hfit c hc hheld
  have hs₀ := sound_init hinit
  have hempty : s₀.custody = [] := by
    obtain ⟨-, -, ⟨na, np, ni, nt, ng⟩, -, rfl⟩ := init_eq_ok hinit
    rfl
  have htracks := h.tracks hs₀ hempty (.refl s) (h.sound hs₀) (a := c.account) (i := c.instrument)
    hheld.1 hheld.2 hok hbuys
  obtain ⟨p, hp⟩ := List.mem_iff_getElem?.mp hc
  obtain ⟨q, hrun, hq⟩ := htracks.row p c hp rfl rfl
  obtain ⟨q', p', hrun', hq', hbudget⟩ := purchases_withinBudget (fun x hx => (hpos x hx).1) hfit
  obtain ⟨rfl, rfl⟩ := Prod.mk.inj (Except.ok.inj (hrun.symm.trans hrun'))
  rw [← hq]
  exact ⟨hq', hbudget⟩

section Decide

instance : ∀ (q p : Raw) (xs : List (Raw × Raw)), Decidable (PurchasesFit q p xs)
  | _, _, [] => inferInstanceAs (Decidable True)
  | _, _, _ :: xs =>
    let _ : ∀ q p, Decidable (PurchasesFit q p xs) := fun q p => instDecidablePurchasesFit q p xs
    inferInstanceAs (Decidable (Fits _ ∧ Fits _ ∧ Fits _ ∧ Fits _ ∧ PurchasesFit _ _ xs))

instance (doc : UInt64) (id : UInt32) : ∀ x : Event, Decidable (x.OnlyBuys doc id)
  | .tradeSettled e => inferInstanceAs (Decidable (e.account = doc → e.instrument = id →
      (e.side = kSideBuy ∧ SettleOutcome.ofCode e.outcome = some .settled) ∨
        SettleOutcome.ofCode e.outcome = some .deliveryFailure))
  | .corporateActionApplied e =>
      inferInstanceAs (Decidable (¬ (e.account = doc ∧ e.instrument = id)))
  | .dayOpened _ | .tradeExecuted _ | .tradeAllocated _ | .batchNetted _ | .dividendPaid _
  | .closingPriceSet _ | .custodyReconciled _ _ | .eodMarked _ => inferInstanceAs (Decidable True)

end Decide

/-- Three shares and then seven, at costs that no price stands for exactly. -/
def threeAndSeven : List Event :=
  [.closingPriceSet quoted, .dayOpened firstDay,
    .tradeExecuted { boughtOne with qty := 300000000 },
    .tradeExecuted { boughtOne with tradeId := 2, qty := 700000000 },
    .tradeSettled ⟨1, 300000000, 0, 100001, 1, 20260903, 1, 1⟩,
    .tradeSettled ⟨1, 700000000, 0, 200003, 1, 20260903, 1, 1⟩]

/-- Ten shares for 30.0004: the price is within the budget of two purchases. -/
theorem averagePrice_drift_threeAndSeven :
    ∃ s₀ arena₀ s steps, blank.init ⟨2 ^ 16, 0, false, false⟩ 1 ⟨2, 2, 2, 2, 2, 2, 2, 2, 60⟩ =
        .ok (true, s₀, arena₀) ∧ Session s₀ steps s ∧
      steps.filterMap (Step.purchase 1 1) = [(300000000, 100001), (700000000, 200003)] ∧
      ∃ c ∈ s.custody, s.IsHeld c 1 1 ∧ c.today = 1000000000 ∧
        WithinBudget [(300000000, 100001), (700000000, 200003)] c.today c.avgPrice := by
  obtain ⟨s₀, arena₀, s, steps, hinit, h, hrun⟩ := @exists_of_runPasses
    ⟨2, 2, 2, 2, 2, 2, 2, 2, 60⟩ threeAndSeven
    (fun steps s =>
      steps.all (fun x => decide (x.st.isFatal = false ∧ x.Meets fun _ y => y.OnlyBuys 1 1)) &&
        decide (steps.filterMap (Step.purchase 1 1) = [(300000000, 100001), (700000000, 200003)]) &&
        s.custody.any fun c => decide (s.IsHeld c 1 1)) (by decide +kernel)
  obtain ⟨hrun, hheld⟩ := Bool.and_eq_true_iff.mp hrun
  obtain ⟨hsteps, hbought⟩ := Bool.and_eq_true_iff.mp hrun
  have hbought := of_decide_eq_true hbought
  have hsteps := fun x hx => of_decide_eq_true (List.all_eq_true.mp hsteps x hx)
  obtain ⟨c, hc, hheld⟩ := List.any_eq_true.mp hheld
  have hheld := of_decide_eq_true hheld
  obtain ⟨hqty, hbudget⟩ := averagePrice_drift.2 _ _ _ _ _ _ _ 1 1 hinit h
    (fun x hx => (hsteps x hx).1) (fun x hx => (hsteps x hx).2)
    (by rw [hbought]; simp only [List.forall_mem_cons]; exact ⟨by decide, by decide, nofun⟩)
    (by rw [hbought]; decide +kernel) c hc hheld
  rw [hbought] at hqty hbudget
  exact ⟨s₀, arena₀, s, steps, hinit, h, hbought, c, hc, hheld, hqty.trans (by decide), hbudget⟩

end MotorRv
