import MotorRv.Core.Panics

/-!
# Events within limits

The buckets of a state are within the limits of a single event. The handlers of five events check
or bound everything they compute, the others add values of the event that nothing has looked at.
`Event.Bounded` lists, handler by handler, the results that must fit, each behind the checks that
come before it.

The conditions are found by computing them: the rules of the library on aborts are equivalences, so
going through a handler leaves, at each step, what must hold for the rest not to panic. Where a
result is bounded by the checks and the limits it disappears from the condition; what remains is
collected under the name of the handler (`Bounded`). The conditions read the event and the rows of
the state before it.

The limits (`Within`) are what one event may bring times a small number, and they are a hypothesis
on the state, not an invariant: sums over many events outgrow them in the end, and a state that is
outside may panic on an ordinary event.
-/

namespace MotorRv

open Lib PartitionState Apply

/-! ### Limits under interning -/

namespace PartitionState.Within

variable {s : PartitionState}

/-- Interning an account adds at most a cleared row, so the limits are kept. -/
theorem internAccount (h : s.Within) (doc : UInt64) : (s.internAccount doc).2.Within := by
  unfold PartitionState.internAccount
  split_ifs
  · exact h
  · split
    · exact ⟨h.custody, h.accounts⟩
    · exact ⟨h.custody, h.accounts⟩
    · refine ⟨h.custody, fun a ha => ?_⟩
      obtain ha | ha := List.mem_append.mp ha
      · exact h.accounts a ha
      · exact List.mem_singleton.mp ha ▸ .cleared doc

/-- Interning an instrument adds no row that the limits speak of. -/
theorem internInstrument (h : s.Within) (id : UInt32) : (s.internInstrument id).2.Within := by
  unfold PartitionState.internInstrument
  split_ifs
  · exact h
  · split
    · exact ⟨h.custody, h.accounts⟩
    · exact ⟨h.custody, h.accounts⟩
    · exact ⟨h.custody, h.accounts⟩

/-- Interning a position adds at most a cleared row, so the limits are kept. -/
theorem internPosition (h : s.Within) (a i : ℕ) : (s.internPosition a i).2.Within := by
  unfold PartitionState.internPosition
  split_ifs
  · exact h
  · split
    · exact ⟨h.custody, h.accounts⟩
    · exact ⟨h.custody, h.accounts⟩
    · refine ⟨fun c hc => ?_, h.accounts⟩
      obtain hc | hc := List.mem_append.mp hc
      · exact h.custody c hc
      · exact List.mem_singleton.mp hc ▸ .cleared a i

theorem account {s' : PartitionState} {doc : UInt64} {a : ℕ} (h : s.Within)
    (hs' : s.internAccount doc = (some a, s')) : s'.Within := by
  have := h.internAccount doc
  rwa [hs'] at this

theorem instrument {s' : PartitionState} {id : UInt32} {i : ℕ} (h : s.Within)
    (hs' : s.internInstrument id = (some i, s')) : s'.Within := by
  have := h.internInstrument id
  rwa [hs'] at this

theorem position {s' : PartitionState} {a i p : ℕ} (h : s.Within)
    (hs' : s.internPosition a i = (some p, s')) : s'.Within := by
  have := h.internPosition a i
  rwa [hs'] at this

theorem custodyRow {i : ℕ} {c : CustodyRow} (h : s.Within) (hc : s.custody[i]? = some c) :
    c.Within := h.custody c (List.mem_of_getElem? hc)

theorem accountRow {i : ℕ} {a : AccountRow} (h : s.Within) (ha : s.accounts[i]? = some a) :
    a.Within := h.accounts a (List.mem_of_getElem? ha)

end PartitionState.Within

/-! ### DayOpened -/

/-- The buckets that a rotation adds to are at most `n`. -/
structure CustodyRow.UpTo (n : ℤ) (c : CustodyRow) : Prop where
  overdueBuy : |c.overdueBuy.toInt| ≤ n
  overdueSell : |c.overdueSell.toInt| ≤ n
  pendingBuy : ∀ k, |(c.pendingBuy k).toInt| ≤ n
  pendingSell : ∀ k, |(c.pendingSell k).toInt| ≤ n

structure AccountRow.UpTo (n : ℤ) (a : AccountRow) : Prop where
  overdue : |a.overdue.toInt| ≤ n
  pending : ∀ k, |(a.pending k).toInt| ≤ n

/-- One slot is replaced, and the bound grows to cover the new value. -/
theorem setSlot_abs {f : Slots Raw} {k : Fin 3} {x : Raw} {n m : ℤ} (hf : ∀ j, |(f j).toInt| ≤ n)
    (hn : n ≤ m) (hx : |x.toInt| ≤ m) (j : Fin 3) : |(setSlot f k x j).toInt| ≤ m := by
  by_cases hj : j = k
  · rw [hj, setSlot, Function.update_self]
    exact hx
  · rw [setSlot, Function.update_of_ne hj]
    exact (hf j).trans hn

/-- A sum of two bounded values. -/
theorem noPanic_add_of_abs_le {α : Type} {a b : Raw} {n m : ℤ} {f : Raw → Exec α}
    (ha : |a.toInt| ≤ n) (hb : |b.toInt| ≤ m) (hlt : n + m < 2 ^ 63)
    (hf : ∀ r : Raw, |r.toInt| ≤ n + m → NoPanic (f r)) : NoPanic (Fixed.add a b >>= f) := by
  have ha' := abs_le.mp ha
  have hb' := abs_le.mp hb
  refine (noPanic_add_bind (P := True) fun r hr => iff_true_intro (hf r ?_)).mpr
    ⟨fits_iff.mpr (by omega), trivial⟩
  exact abs_le.mpr (by omega)

/-- A step of the rotation adds at most one old bucket to each new one. -/
theorem CustodyRow.Within.rotateSlot {c acc : CustodyRow} {n : ℤ} (h : c.Within) (hacc : acc.UpTo n)
    (hn : n ≤ 30000000000000000) (old new : SettlementWindow) (k : Fin 3) :
    NoPanic (rotateCustodySlot old new c acc k) ∧ ∀ c',
      rotateCustodySlot old new c acc k = .ok c' → c'.UpTo (n + 10000000000000000) := by
  have hle : n ≤ n + 10000000000000000 := by omega
  unfold rotateCustodySlot
  split_ifs
  · refine ⟨avoids_ok _, ?_⟩
    rintro _ ⟨⟩
    exact ⟨hacc.overdueBuy.trans hle, hacc.overdueSell.trans hle,
      fun j => (hacc.pendingBuy j).trans hle, fun j => (hacc.pendingSell j).trans hle⟩
  · split
    -- a date that left the window goes to what is overdue
    · refine ⟨?_, fun c' hc' => ?_⟩
      · refine noPanic_add_of_abs_le hacc.overdueBuy (h.pendingBuy k) (by omega) fun b _ => ?_
        refine noPanic_add_of_abs_le hacc.overdueSell (h.pendingSell k) (by omega) fun v _ => ?_
        exact avoids_ok _
      · simp only [bind, except_bind_eq_ok] at hc'
        obtain ⟨b, hb, v, hv, hc'⟩ := hc'
        obtain rfl := Except.ok.inj hc'
        refine ⟨?_, ?_, fun j => (hacc.pendingBuy j).trans hle,
          fun j => (hacc.pendingSell j).trans hle⟩
        · rw [Fixed.add_eq_ok hb]
          exact (abs_add_le _ _).trans (add_le_add hacc.overdueBuy (h.pendingBuy k))
        · rw [Fixed.add_eq_ok hv]
          exact (abs_add_le _ _).trans (add_le_add hacc.overdueSell (h.pendingSell k))
    -- a date that stays goes to its new slot
    · rename_i j _
      refine ⟨?_, fun c' hc' => ?_⟩
      · refine noPanic_add_of_abs_le (hacc.pendingBuy j) (h.pendingBuy k) (by omega) fun b _ => ?_
        refine noPanic_add_of_abs_le (hacc.pendingSell j) (h.pendingSell k) (by omega) fun v _ => ?_
        exact avoids_ok _
      · simp only [bind, except_bind_eq_ok] at hc'
        obtain ⟨b, hb, v, hv, hc'⟩ := hc'
        obtain rfl := Except.ok.inj hc'
        refine ⟨hacc.overdueBuy.trans hle, hacc.overdueSell.trans hle,
          setSlot_abs hacc.pendingBuy hle ?_, setSlot_abs hacc.pendingSell hle ?_⟩
        · rw [Fixed.add_eq_ok hb]
          exact (abs_add_le _ _).trans (add_le_add (hacc.pendingBuy j) (h.pendingBuy k))
        · rw [Fixed.add_eq_ok hv]
          exact (abs_add_le _ _).trans (add_le_add (hacc.pendingSell j) (h.pendingSell k))

/-- After three steps no bucket is above four times the limit of a quantity. -/
theorem noPanic_rotateCustody {c : CustodyRow} (h : c.Within) (old new : SettlementWindow) :
    NoPanic (rotateCustody old new c) := by
  unfold rotateCustody
  split_ifs
  · exact avoids_ok _
  · have hempty : ({ c with pendingBuy := fun _ => 0, pendingSell := fun _ => 0 } :
        CustodyRow).UpTo 10000000000000000 :=
      ⟨h.overdueBuy, h.overdueSell, fun _ => by simp, fun _ => by simp⟩
    have h₀ := h.rotateSlot hempty (by norm_num) old new 0
    refine .bind h₀.1 fun c₀ hc₀ => ?_
    have h₁ := h.rotateSlot (h₀.2 c₀ hc₀) (by norm_num) old new 1
    refine .bind h₁.1 fun c₁ hc₁ => ?_
    exact (h.rotateSlot (h₁.2 c₁ hc₁) (by norm_num) old new 2).1

/-- A step of the rotation of the money adds at most one old amount to each new one. -/
theorem AccountRow.Within.rotateSlot {a acc : AccountRow} {n : ℤ} (h : a.Within) (hacc : acc.UpTo n)
    (hn : n ≤ 300000000000000000) (old new : SettlementWindow) (k : Fin 3) :
    NoPanic (rotateCashSlot old new a acc k) ∧ ∀ a',
      rotateCashSlot old new a acc k = .ok a' → a'.UpTo (n + 100000000000000000) := by
  have hle : n ≤ n + 100000000000000000 := by omega
  have hk := money_bounds (h.pending k)
  unfold rotateCashSlot
  split_ifs
  · refine ⟨avoids_ok _, ?_⟩
    rintro _ ⟨⟩
    exact ⟨hacc.overdue.trans hle, fun j => (hacc.pending j).trans hle⟩
  · split
    · refine ⟨?_, fun a' ha' => ?_⟩
      · exact noPanic_add_of_abs_le hacc.overdue hk (by omega) fun _ _ => avoids_ok _
      · simp only [bind, except_bind_eq_ok] at ha'
        obtain ⟨p, hp, ha'⟩ := ha'
        obtain rfl := Except.ok.inj ha'
        refine ⟨?_, fun j => (hacc.pending j).trans hle⟩
        rw [Fixed.add_eq_ok hp]
        exact (abs_add_le _ _).trans (add_le_add hacc.overdue hk)
    · rename_i j _
      refine ⟨?_, fun a' ha' => ?_⟩
      · exact noPanic_add_of_abs_le (hacc.pending j) hk (by omega) fun _ _ => avoids_ok _
      · simp only [bind, except_bind_eq_ok] at ha'
        obtain ⟨p, hp, ha'⟩ := ha'
        obtain rfl := Except.ok.inj ha'
        refine ⟨hacc.overdue.trans hle, setSlot_abs hacc.pending hle ?_⟩
        rw [Fixed.add_eq_ok hp]
        exact (abs_add_le _ _).trans (add_le_add (hacc.pending j) hk)

/-- After three steps no amount is above four times the limit of money. -/
theorem noPanic_rotateCash {a : AccountRow} (h : a.Within) (old new : SettlementWindow) :
    NoPanic (rotateCash old new a) := by
  unfold rotateCash
  split_ifs
  · exact avoids_ok _
  · have hempty : ({ a with pending := fun _ => 0 } : AccountRow).UpTo 100000000000000000 :=
      ⟨money_bounds h.overdue, fun _ => by simp⟩
    have h₀ := h.rotateSlot hempty (by norm_num) old new 0
    refine .bind h₀.1 fun a₀ ha₀ => ?_
    have h₁ := h.rotateSlot (h₀.2 a₀ ha₀) (by norm_num) old new 1
    refine .bind h₁.1 fun a₁ ha₁ => ?_
    exact (h.rotateSlot (h₁.2 a₁ ha₁) (by norm_num) old new 2).1

theorem noPanic_relink {ts : List TradeRow} : ∀ {i : ℕ} {accounts : List AccountRow},
    NoPanic (relink i ts accounts) := by
  induction ts with
  | nil =>
    intro i accounts
    exact avoids_ok _
  | cons t ts ih =>
    intro i accounts
    refine .bind ih fun ⟨ts', accounts'⟩ _ => ?_
    dsimp only
    split
    · simp [Abort.Panic]
    · exact avoids_ok _

/-- Within the limits a day opens whatever its dates are. -/
theorem noPanic_openDay {s : PartitionState} (h : s.Within) (e : DayOpened) :
    NoPanic (openDay e s) := by
  refine .bind (.mapM fun c hc => noPanic_rotateCustody (h.custody c hc) _ _) fun custody _ => ?_
  refine .bind (.mapM fun a ha => noPanic_rotateCash (h.accounts a ha) _ _) fun accounts _ => ?_
  unfold closeAndCompactTrades
  split_ifs
  · exact .bind noPanic_relink fun _ _ => avoids_ok _
  · exact avoids_ok _

/-- The first event of a day never panics. -/
theorem spared_dayOpened {e : Engine} (h : e.s.Within) (ev : EventView) :
    Spared (applyDayOpened ev) e := by
  unfold applyDayOpened
  refine spared_decode.mpr fun _ => spared_guard.mpr fun _ => spared_read.mpr ?_
  refine spared_guard.mpr fun _ => ?_
  exact Proc.spares_update.mpr (avoids_map.mpr (noPanic_openDay h _))

/-! ### TradeExecuted -/

/-- The size of a truncated quotient. -/
theorem abs_tdiv_le {n d B : ℤ} (hd : 0 < d) (hn : |n| ≤ B * d) : |n.tdiv d| ≤ B := by
  have hle : ∀ m : ℤ, 0 ≤ m → m ≤ B * d → |m.tdiv d| ≤ B := by
    intro m hm hmB
    rw [abs_of_nonneg (Int.tdiv_nonneg hm hd.le), Int.tdiv_eq_ediv_of_nonneg hm]
    exact Int.ediv_le_of_le_mul hd hmB
  obtain ⟨hlow, hhigh⟩ := abs_le.mp hn
  obtain hneg | hpos := le_total n 0
  · rw [← neg_neg n, Int.neg_tdiv, abs_neg]
    exact hle (-n) (by omega) (by omega)
  · exact hle n hpos hhigh

/-- A quotient below `B` stays next to it when it is rounded. -/
theorem abs_halfEven_le {n d B : ℤ} (hd : 0 < d) (hn : |n| ≤ B * d) : |halfEven n d| ≤ B + 1 := by
  have := abs_le.mp (abs_tdiv_le hd hn)
  unfold halfEven
  split_ifs <;> exact abs_le.mpr (by omega)

/-- The quotient of a bounded product, exact or rounded. -/
theorem mulDiv_bounded {a b : Raw} {d B : ℤ} (hd : 0 < d) (hn : |a.toInt * b.toInt| ≤ B * d)
    (hB : B < 2 ^ 63 - 1) : NoPanic (mulDiv .halfEven a b d) ∧
      ∀ r, mulDiv .halfEven a b d = .ok r → |r.toInt| ≤ B + 1 := by
  have hround := abs_halfEven_le hd hn
  refine ⟨(noPanic_mulDiv hd).mpr (.inr (fits_iff.mpr ?_)), fun r hr => ?_⟩
  · have := abs_le.mp hround
    omega
  · rw [mulDiv_eq_quotient hd hr, quotient]
    split_ifs with hexact
    · have := abs_le.mp (abs_tdiv_le hd hn)
      rw [castRaw, Int64.toInt_ofInt_of_le (by omega) (by omega)]
      exact abs_le.mpr (by omega)
    · exact hround

/-- The size of a product. -/
theorem abs_mul_le {x y X Y : ℤ} (hx : |x| ≤ X) (hy : |y| ≤ Y) : |x * y| ≤ X * Y := by
  rw [abs_mul]
  exact mul_le_mul hx hy (abs_nonneg y) ((abs_nonneg x).trans hx)

/-- The condition that a notional does not panic: only its divisor can be too large. -/
theorem notional_bounded {q p : Raw} {factor : UInt32} (hq : qtyInRange q = true)
    (hp : priceInRange p = true) (hfactor : factor ≠ 0) :
    (NoPanic (notionalHalfEven q p factor) ↔ Fits (kQtyPriceToMoney * factor.toNat)) ∧
      ∀ r, notionalHalfEven q p factor = .ok r → |r.toInt| ≤ 1000000000000000001 := by
  have hpos : 0 < factor.toNat :=
    Nat.pos_of_ne_zero fun h0 => hfactor (UInt32.toNat_inj.mp h0)
  have hd : 0 < kQtyPriceToMoney * (factor.toNat : ℤ) := by
    unfold kQtyPriceToMoney
    omega
  have hprod : |q.toInt * p.toInt| ≤ 1000000000000000000 * (kQtyPriceToMoney * factor.toNat) := by
    have hp' := price_bounds hp
    refine (abs_mul_le (qty_bounds hq)
      (abs_le.mpr (by omega) : |p.toInt| ≤ 100000000000000)).trans ?_
    unfold kQtyPriceToMoney
    omega
  have hdiv := mulDiv_bounded (a := q) (b := p) hd hprod (by norm_num)
  unfold notionalHalfEven
  rw [if_neg hfactor]
  refine ⟨?_, fun r hr => ?_⟩
  · rw [NoPanic, avoids_ite]
    refine ⟨fun h => ?_, fun h => ⟨fun _ => hdiv.1, fun hno => absurd h hno⟩⟩
    by_contra hno
    simpa [Abort.Panic] using h.2 hno
  · split_ifs at hr
    exact hdiv.2 r hr

/-- The checks of an execution on its own values. -/
def TradeExecuted.InRange (e : TradeExecuted) : Prop :=
  (0 < e.qty ∧ qtyInRange e.qty = true) ∧ priceInRange e.price = true ∧
    moneyInRange e.brokerageFee = true ∧ moneyInRange e.exchangeFee = true ∧
    moneyInRange e.clearingFee = true ∧ moneyInRange e.taxes = true

/-- The price factor of the instrument is not too large for the divisor of the notional. -/
def TradeExecuted.Bounded (e : TradeExecuted) (s : PartitionState) : Prop :=
  s.trades.length < s.cap.tables.trades.toNat → s.tradeIndex.contains e.tradeId = false →
    ∀ acct s₁, s.internAccount e.account = (some acct, s₁) →
      ∀ inst s₂, s₁.internInstrument e.instrument = (some inst, s₂) →
        ∀ i, s₂.instruments[inst]? = some i → i.priceFactor ≠ 0 →
          ∀ k, s₂.window.slotOf e.settlementDate = some k →
            ∀ pos s₃, s₂.internPosition acct inst = (some pos, s₃) → e.InRange →
              Fits (kQtyPriceToMoney * i.priceFactor.toNat)

/-- The cash of a trade, from a bounded notional. -/
theorem tradeCash_bounded {e : TradeExecuted} {gross fees : Raw}
    (hgross : |gross.toInt| ≤ 1000000000000000001) (hfees : |fees.toInt| ≤ 400000000000000000) :
    NoPanic (tradeCash e gross fees) ∧
      ∀ r, tradeCash e gross fees = .ok r → |r.toInt| ≤ 1400000000000000001 := by
  have hg := abs_le.mp hgross
  have hf := abs_le.mp hfees
  unfold tradeCash
  split_ifs
  · refine ⟨?_, fun r hr => ?_⟩
    · refine noPanic_add_of_abs_le hgross hfees (by norm_num) fun x hx => noPanic_checkedRaw.mpr ?_
      have := abs_le.mp hx
      exact fits_iff.mpr (by omega)
    · obtain ⟨x, hx, hr⟩ := except_bind_eq_ok.mp hr
      rw [Fixed.neg_eq_ok hr, Fixed.add_eq_ok hx]
      exact abs_le.mpr (by omega)
  · refine ⟨noPanic_sub.mpr (fits_iff.mpr (by omega)), fun r hr => ?_⟩
    rw [Fixed.sub_eq_ok hr]
    exact abs_le.mpr (by omega)

/-- Within the limits an execution may add its quantity to the pending one. -/
theorem noPanic_executeCustody {e : TradeExecuted} {k : Fin 3} {c : CustodyRow} (h : c.Within)
    (hqty : qtyInRange e.qty = true) : NoPanic (executeCustody e k c) := by
  have hq := abs_le.mp (qty_bounds hqty)
  have hb := abs_le.mp (h.pendingBuy k)
  have hv := abs_le.mp (h.pendingSell k)
  have ha := abs_le.mp h.available
  unfold executeCustody
  split_ifs
  · exact noPanic_add_ok.mpr (fits_iff.mpr (by omega))
  · refine (noPanic_sub_bind fun _ _ => noPanic_add_ok).mpr ⟨fits_iff.mpr (by omega), ?_⟩
    exact fits_iff.mpr (by omega)
  · refine (noPanic_sub_bind fun _ _ => noPanic_add_ok).mpr ⟨fits_iff.mpr (by omega), ?_⟩
    exact fits_iff.mpr (by omega)

theorem noPanic_insertTrade (e : TradeExecuted) (acct inst : ℕ) (cash : Raw) (s : PartitionState) :
    NoPanic (insertTrade e acct inst cash s) := .bind (noPanic_rowAt _ _) fun _ _ => avoids_ok _

/-- Behind the notional everything is bounded. -/
theorem spared_executed {e : Engine} (h : e.s.Within) {x : TradeExecuted} (hx : x.InRange)
    {ev : EventView} {acct inst pos : ℕ} {k : Fin 3} {gross fees : Raw}
    (hgross : |gross.toInt| ≤ 1000000000000000001) (hfees : feesOf x = some fees) :
    Spared (do
      let c ← custodyAt pos
      Proc.guard (x.side = kSideBuy ∨ x.flags &&& 2 ≠ 0 ∨ ¬ c.available < x.qty)
        (.fail .shortSaleNotAllowed (UInt32.ofNat pos))
      let cash ← Proc.lift (tradeCash x gross fees)
      modCustody pos (executeCustody x k)
      modAccount acct (addPending k cash)
      change (insertTrade x acct inst cash)
      checkBuckets pos
      publicaPosicao ev pos : Apply PUnit) e := by
  obtain ⟨⟨-, hqty⟩, -, h₁, h₂, h₃, h₄⟩ := hx
  have hsum : |fees.toInt| ≤ 400000000000000000 := by
    have h₁ := abs_le.mp (money_bounds h₁)
    have h₂ := abs_le.mp (money_bounds h₂)
    have h₃ := abs_le.mp (money_bounds h₃)
    have h₄ := abs_le.mp (money_bounds h₄)
    rw [feesOf_eq_some hfees, TradeExecuted.fees]
    exact abs_le.mpr (by omega)
  have hcash := tradeCash_bounded (e := x) hgross hsum
  refine spared_row.mpr fun c _ => spared_guard.mpr fun _ => ?_
  refine spared_lift.mpr ⟨hcash.1, fun cash hcash' => ?_⟩
  refine spared_modCustody.mpr fun c hc => ⟨noPanic_executeCustody (h.custodyRow hc) hqty, ?_⟩
  intro c' _
  refine (spared_modAccount_easy ?_).mpr fun a ha => noPanic_add_ok.mpr ?_
  · refine (easy_change (noPanic_insertTrade _ _ _ _)).bind fun _ => ?_
    exact (easy_checkBuckets pos).bind fun _ => easy_publicaPosicao ev pos
  · have hp := abs_le.mp (money_bounds ((h.accountRow ha).pending k))
    have hm := abs_le.mp (hcash.2 cash hcash')
    exact fits_iff.mpr (by omega)

/-- An execution panics only in its notional. -/
theorem spared_tradeExecuted {e : Engine} (h : e.s.Within) (ev : EventView) :
    Spared (applyTradeExecuted ev) e ↔
      (Tmpl.tradeExecuted.blockLength ≤ ev.payload.length →
        (TradeExecuted.ofBytes ev.payload).Bounded e.s) := by
  unfold applyTradeExecuted TradeExecuted.Bounded
  refine spared_decode.trans (imp_congr_right fun _ => ?_)
  generalize TradeExecuted.ofBytes ev.payload = x
  refine spared_read.trans (spared_guard.trans (imp_congr (by simp) ?_))
  refine spared_read.trans (spared_guard.trans (imp_congr_right fun _ => ?_))
  refine spared_account.trans (forall₂_congr fun acct s₁ => imp_congr_right fun h₁ => ?_)
  refine spared_instrument.trans (forall₂_congr fun inst s₂ => imp_congr_right fun h₂ => ?_)
  refine spared_row.trans (forall_congr' fun i => imp_congr_right fun _ => ?_)
  refine spared_guard.trans (imp_congr_right fun hfactor => ?_)
  refine spared_slot.trans (forall_congr' fun k => imp_congr_right fun _ => ?_)
  refine spared_position.trans (forall₂_congr fun pos s₃ => imp_congr_right fun h₃ => ?_)
  have hwithin : s₃.Within := ((h.account h₁).instrument h₂).position h₃
  rw [TradeExecuted.InRange, and_imp (a := 0 < x.qty ∧ _),
    and_imp (a := priceInRange x.price = true)]
  refine spared_guard.trans (imp_congr_right fun hqty => ?_)
  refine spared_guard.trans (imp_congr_right fun hprice => ?_)
  refine spared_guard.trans (imp_congr_right fun hfees => ?_)
  have hnotional := notional_bounded hqty.2 hprice hfactor
  refine spared_lift.trans ((and_iff_left fun gross hgross => ?_).trans hnotional.1)
  refine spared_orFail.mpr fun fees hsum => ?_
  exact spared_executed (e := { e with s := s₃ }) hwithin ⟨hqty, hprice, hfees⟩
    (hnotional.2 gross hgross) hsum

/-! ### TradeAllocated -/

namespace TradeAllocated

/-- What the trade takes from the position that it leaves fits. -/
def LeavesWell (e : TradeAllocated) (k : Fin 3) (c : CustodyRow) : Prop :=
  if e.side = kSideBuy then Fits ((c.pendingBuy k).toInt - e.qty.toInt)
  else Fits ((c.pendingSell k).toInt - e.qty.toInt) ∧ Fits (c.available.toInt + e.qty.toInt)

def EntersWell (e : TradeAllocated) (k : Fin 3) (c : CustodyRow) : Prop :=
  if e.side = kSideBuy then Fits ((c.pendingBuy k).toInt + e.qty.toInt)
  else Fits ((c.pendingSell k).toInt + e.qty.toInt) ∧ Fits (c.available.toInt - e.qty.toInt)

/-- The rows pass the checks of an allocation. -/
def Passes (e : TradeAllocated) (k : Fin 3) (c₁ c₂ : CustodyRow) : Prop :=
  ¬ (if e.side = kSideBuy then c₁.pendingBuy k < e.qty else c₁.pendingSell k < e.qty) ∧
    (e.side = kSideBuy ∨ c₂.shortAllowed = true ∨ ¬ c₂.available < e.qty)

/-- The quantity and the cash fit where they leave and where they enter. -/
def Bounded (e : TradeAllocated) (s : PartitionState) : Prop :=
  ∀ t, s.tradeIndex.find e.tradeId = some t → ∀ r, s.trades[t]? = some r →
    ∀ next, nextOf r.state .allocate = .ok next → next ≠ .none →
      ∀ de s₁, s.internAccount e.fromAccount = (some de, s₁) →
        ∀ para s₂, s₁.internAccount e.toAccount = (some para, s₂) →
          ∀ k, s₂.window.slotOf e.settlementDate = some k → e.qty = r.qty → de ≠ para →
            ∀ posDe s₃, s₂.internPosition de r.instrument = (some posDe, s₃) →
              ∀ posPara s₄, s₃.internPosition para r.instrument = (some posPara, s₄) →
                ∀ c₁, s₄.custody[posDe]? = some c₁ → ∀ c₂, s₄.custody[posPara]? = some c₂ →
                  e.Passes k c₁ c₂ → e.LeavesWell k c₁ ∧ (posPara ≠ posDe → e.EntersWell k c₂) ∧
                    ∀ a₁, s₄.accounts[de]? = some a₁ →
                      Fits ((a₁.pending k).toInt - e.cashAmount.toInt) ∧
                        ∀ a₂, s₄.accounts[para]? = some a₂ →
                          Fits ((a₂.pending k).toInt + e.cashAmount.toInt)

end TradeAllocated

/-- The quantity leaves the source without a panic just when it does so well. -/
theorem noPanic_allocateFrom {e : TradeAllocated} {k : Fin 3} {c : CustodyRow} :
    NoPanic (allocateFrom e k c) ↔ e.LeavesWell k c := by
  unfold allocateFrom TradeAllocated.LeavesWell
  split_ifs
  · exact noPanic_sub_ok
  · exact noPanic_sub_bind fun _ _ => noPanic_add_ok

/-- The quantity enters the destination without a panic just when it does so well. -/
theorem noPanic_allocateTo {e : TradeAllocated} {k : Fin 3} {c : CustodyRow} :
    NoPanic (allocateTo e k c) ↔ e.EntersWell k c := by
  unfold allocateTo TradeAllocated.EntersWell
  split_ifs
  · exact noPanic_add_ok
  · exact noPanic_add_bind fun _ _ => noPanic_sub_ok

/-- What was taken out can be put back. -/
theorem entersWell_allocateFrom {e : TradeAllocated} {k : Fin 3} {c c' : CustodyRow}
    (h : allocateFrom e k c = .ok c') : e.EntersWell k c' := by
  have hfits : ∀ r : Raw, Fits r.toInt := fun r => fits_iff.mpr ⟨r.le_toInt, r.toInt_lt⟩
  unfold allocateFrom at h
  unfold TradeAllocated.EntersWell
  split_ifs at h ⊢
  · obtain ⟨b, hb, h⟩ := except_bind_eq_ok.mp h
    obtain rfl := Except.ok.inj h
    have := Fixed.sub_eq_ok hb
    simp only [setSlot, Function.update_self, this, sub_add_cancel]
    exact hfits _
  · simp only [bind, except_bind_eq_ok] at h
    obtain ⟨v, hv, av, hav, h⟩ := h
    obtain rfl := Except.ok.inj h
    have hv := Fixed.sub_eq_ok hv
    have hav := Fixed.add_eq_ok hav
    simp only [setSlot, Function.update_self, hv, hav, sub_add_cancel, add_sub_cancel_right]
    exact ⟨hfits _, hfits _⟩

theorem noPanic_predecessor {trades : List TradeRow} {t : ℕ} : ∀ {fuel cur : ℕ},
    NoPanic (predecessor trades t fuel cur) := by
  intro fuel
  induction fuel with
  | zero =>
    intro cur
    simp [NoPanic, predecessor, Abort.Panic]
  | succ fuel ih =>
    intro cur
    refine .bind (noPanic_rowAt _ _) fun r _ => ?_
    split
    · exact avoids_ok _
    · exact avoids_ite.mpr ⟨fun _ => avoids_ok _, fun _ => ih⟩

/-- Moving a trade between lists computes nothing. -/
theorem noPanic_relinkTrade (de para t : ℕ) (s : PartitionState) :
    NoPanic (relinkTrade de para t s) := by
  have hunlink : NoPanic (unlinkTrade s de t) := by
    refine .bind (noPanic_rowAt _ _) fun a _ => ?_
    split
    · exact avoids_ok _
    · refine avoids_ite.mpr ⟨fun _ => .bind (noPanic_rowAt _ _) fun _ _ => avoids_ok _, fun _ => ?_⟩
      refine .bind noPanic_predecessor fun p _ => ?_
      cases p with
      | none => exact avoids_ok _
      | some p =>
        refine .bind (noPanic_rowAt _ _) fun r _ => .bind ?_ fun _ _ => avoids_ok _
        exact noPanic_modRow.mpr fun _ _ => avoids_ok _
  refine .bind hunlink fun ⟨_, s₁⟩ _ => .bind (noPanic_rowAt _ _) fun a _ => .bind ?_ ?_
  · exact noPanic_modRow.mpr fun _ _ => avoids_ok _
  · exact fun _ _ => avoids_ok _

theorem forall_some_eq {α : Type} {o : Option α} {a : α} {P : α → Prop} {Q : Prop}
    (h : o = some a) (hPQ : P a ↔ Q) : (∀ x, o = some x → P x) ↔ Q := by
  rw [h]
  simpa using hPQ

theorem forall_ok_eq {α : Type} (a : α) {P : α → Prop} :
    (∀ x, (Except.ok a : Exec α) = .ok x → P x) ↔ P a := by
  simp

/-- In front of easy parts a part is spared on its own. -/
theorem spared_bind_easy {α β : Type} {e : Engine} {m : Apply α} {f : α → Apply β}
    (hf : ∀ a, Easy (f a)) : Spared (m >>= f) e ↔ Spared m e :=
  Proc.spares_bind.trans (and_iff_left fun a e' _ => hf a e')

/-- Two rows are interned before either answer is looked at. -/
theorem spared_internBoth {β : Type} {e : Engine}
    {g g' : PartitionState → Option ℕ × PartitionState}
    {st st' : Status} {f : ℕ → ℕ → Apply β} :
    Spared (ask g >>= fun r => ask g' >>= fun r' => Proc.orFail r st >>= fun i =>
        Proc.orFail r' st' >>= fun j => f i j) e ↔
      ∀ i s', g e.s = (some i, s') → ∀ j s'', g' s' = (some j, s'') →
        Spared (f i j) { e with s := s'' } := by
  refine spared_ask.trans (spared_ask.trans (spared_orFail.trans ?_))
  rcases g e.s with ⟨o, s'⟩
  refine ⟨?_, fun h i hi => spared_orFail.mpr fun j hj => ?_⟩
  · rintro h i _ ⟨⟩ j s'' hj
    have := spared_orFail.mp (h i rfl) j (by rw [hj])
    rwa [hj] at this
  · exact h i s' (by rw [← hi]) j _ (Prod.ext hj rfl)

/-- Behind the checks of an allocation they are known to have passed. -/
theorem spared_checkAllocation {β : Type} {e : Engine} {x : TradeAllocated} {k : Fin 3}
    {posDe posPara : ℕ} {f : PUnit → Apply β} :
    Spared (checkAllocation x k posDe posPara >>= f) e ↔
      ∀ c₁, e.s.custody[posDe]? = some c₁ → ∀ c₂, e.s.custody[posPara]? = some c₂ →
        x.Passes k c₁ c₂ → Spared (f ⟨⟩) e := by
  refine Proc.spares_assoc.trans (spared_row.trans ?_)
  refine forall_congr' fun c₁ => imp_congr_right fun _ => ?_
  refine Proc.spares_assoc.trans (spared_row.trans ?_)
  refine forall_congr' fun c₂ => imp_congr_right fun _ => ?_
  rw [TradeAllocated.Passes, and_imp]
  refine Proc.spares_assoc.trans (spared_guard.trans (imp_congr_right fun _ => ?_))
  exact spared_guard

theorem easy_modTrade (i : ℕ) {g : TradeRow → Exec TradeRow} (hg : ∀ r, NoPanic (g r)) :
    Easy (modTrade i g) :=
  easy_change fun _ => avoids_map.mpr (noPanic_modRow.mpr fun r _ => hg r)

/-- The two positions may be one row, which then gets back what it gave. -/
theorem forall_allocateTo {rows : List CustodyRow} {e : TradeAllocated} {k : Fin 3} {i j : ℕ}
    {c₁ c₁' c₂ : CustodyRow} (hc₁ : rows[i]? = some c₁) (hc₂ : rows[j]? = some c₂)
    (hc₁' : allocateFrom e k c₁ = .ok c₁') {P : Prop} :
    (∀ c, (rows.set i c₁')[j]? = some c → NoPanic (allocateTo e k c) ∧ P) ↔
      (j ≠ i → e.EntersWell k c₂) ∧ P := by
  by_cases hij : j = i
  · subst hij
    rw [List.getElem?_set_self (List.getElem?_eq_some_iff.mp hc₁).1]
    constructor
    · intro h
      exact ⟨fun hne => absurd rfl hne, (h c₁' rfl).2⟩
    · rintro ⟨-, hP⟩ _ ⟨⟩
      exact ⟨noPanic_allocateTo.mpr (entersWell_allocateFrom hc₁'), hP⟩
  · rw [List.getElem?_set_ne (Ne.symm hij), hc₂]
    constructor
    · intro h
      exact ⟨fun _ => noPanic_allocateTo.mp (h c₂ rfl).1, (h c₂ rfl).2⟩
    · rintro ⟨henters, hP⟩ _ ⟨⟩
      exact ⟨noPanic_allocateTo.mpr (henters hij), hP⟩

theorem numeric_allocateFrom (e : TradeAllocated) (k : Fin 3) (c : CustodyRow) :
    Numeric (allocateFrom e k c) := by
  unfold allocateFrom
  split_ifs
  · exact numeric_sub_ok _ _ _
  · exact .bind (numeric_checkedRaw _) fun _ _ => numeric_add_ok _ _ _

theorem numeric_allocateTo (e : TradeAllocated) (k : Fin 3) (c : CustodyRow) :
    Numeric (allocateTo e k c) := by
  unfold allocateTo
  split_ifs
  · exact numeric_add_ok _ _ _
  · exact .bind (numeric_checkedRaw _) fun _ _ => numeric_sub_ok _ _ _

/-- The arithmetic of the two positions and the two accounts of an allocation. -/
theorem spared_moved {e : Engine} {x : TradeAllocated} {k : Fin 3} {de para posDe posPara t : ℕ}
    {c₁ c₂ : CustodyRow} (hne : de ≠ para) (hc₁ : e.s.custody[posDe]? = some c₁)
    (hc₂ : e.s.custody[posPara]? = some c₂) :
    Spared (do
      modCustody posDe (allocateFrom x k)
      modCustody posPara (allocateTo x k)
      modAccount de (subPending k x.cashAmount)
      modAccount para (addPending k x.cashAmount)
      change (relinkTrade de para t)
      checkBuckets posDe
      checkBuckets posPara : Apply PUnit) e ↔
      x.LeavesWell k c₁ ∧ (posPara ≠ posDe → x.EntersWell k c₂) ∧
        ∀ a₁, e.s.accounts[de]? = some a₁ → Fits ((a₁.pending k).toInt - x.cashAmount.toInt) ∧
          ∀ a₂, e.s.accounts[para]? = some a₂ →
            Fits ((a₂.pending k).toInt + x.cashAmount.toInt) := by
  have hlast : Easy (change (relinkTrade de para t) >>= fun _ => checkBuckets posDe >>= fun _ =>
      checkBuckets posPara) :=
    (easy_change (noPanic_relinkTrade de para t)).bind fun _ =>
      (easy_checkBuckets posDe).bind fun _ => easy_checkBuckets posPara
  -- the accounts do not depend on what the rows of the positions have become
  set money : Prop := ∀ a₁, e.s.accounts[de]? = some a₁ →
    Fits ((a₁.pending k).toInt - x.cashAmount.toInt) ∧ ∀ a₂, e.s.accounts[para]? = some a₂ →
      Fits ((a₂.pending k).toInt + x.cashAmount.toInt) with hmoney
  refine (spared_modCustody_then (P := fun _ => (posPara ≠ posDe → x.EntersWell k c₂) ∧ money)
    (numeric_allocateFrom x k) fun c c₁' hc hc₁' => ?_).trans
    (forall_some_eq hc₁ (and_congr_left' noPanic_allocateFrom))
  obtain rfl : c = c₁ := Option.some.inj (hc.symm.trans hc₁)
  refine (spared_modCustody_then (P := fun _ => money) (numeric_allocateTo x k)
    fun c' c₂' _ _ => ?_).trans (forall_allocateTo hc₁ hc₂ hc₁')
  refine (spared_modAccount_then (P := fun _ => ∀ a₂, e.s.accounts[para]? = some a₂ →
    Fits ((a₂.pending k).toInt + x.cashAmount.toInt)) (fun a => numeric_sub_ok _ _ _)
    fun a₁ a₁' _ _ => ?_).trans (forall₂_congr fun a₁ _ => and_congr_left' noPanic_sub_ok)
  refine (spared_modAccount_easy hlast).trans ?_
  dsimp only
  rw [List.getElem?_set_ne hne]
  exact forall₂_congr fun a₂ _ => noPanic_add_ok

/-- What an allocation may panic on. -/
theorem spared_tradeAllocated {e : Engine} (ev : EventView) :
    Spared (applyTradeAllocated ev) e ↔
      (Tmpl.tradeAllocated.blockLength ≤ ev.payload.length →
        (TradeAllocated.ofBytes ev.payload).Bounded e.s) := by
  unfold applyTradeAllocated TradeAllocated.Bounded
  refine spared_decode.trans (imp_congr_right fun _ => ?_)
  generalize TradeAllocated.ofBytes ev.payload = x
  refine spared_read.trans
    (spared_orFail.trans (forall_congr' fun t => imp_congr_right fun _ => ?_))
  refine spared_row.trans (forall_congr' fun r => imp_congr_right fun _ => ?_)
  refine spared_lift.trans ((and_iff_right (noPanic_nextOf _ _)).trans ?_)
  refine forall_congr' fun next => imp_congr_right fun _ => ?_
  refine spared_guard.trans (imp_congr_right fun _ => ?_)
  refine spared_internBoth.trans (forall₂_congr fun de s₁ => imp_congr_right fun _ => ?_)
  refine forall₂_congr fun para s₂ => imp_congr_right fun _ => ?_
  refine spared_slot.trans (forall_congr' fun k => imp_congr_right fun _ => ?_)
  refine spared_guard.trans (imp_congr_right fun _ => ?_)
  have hlast : ∀ u : PUnit, Easy (modTrade t fun r => .ok { r with state := next.code }) :=
    fun _ => easy_modTrade t fun _ => avoids_ok _
  by_cases hne : de ≠ para
  · rw [if_pos hne, forall_prop_of_true hne]
    refine (spared_bind_easy hlast).trans (spared_internBoth.trans ?_)
    refine forall₂_congr fun posDe s₃ => imp_congr_right fun _ => ?_
    refine forall₂_congr fun posPara s₄ => imp_congr_right fun _ => ?_
    refine spared_checkAllocation.trans (forall_congr' fun c₁ => imp_congr_right fun hc₁ => ?_)
    refine forall_congr' fun c₂ => imp_congr_right fun hc₂ => imp_congr_right fun _ => ?_
    exact spared_moved (e := { e with s := s₄ }) hne hc₁ hc₂
  · rw [if_neg hne]
    exact iff_of_true ((Easy.pure _).bind hlast _) fun h => absurd h hne

/-! ### BatchNetted -/

/-- A batch adds nothing up. -/
theorem spared_batchNetted (ev : EventView) (e : Engine) : Spared (applyBatchNetted ev) e := by
  unfold applyBatchNetted
  refine spared_decode.mpr fun _ => spared_account.mpr fun acct s₁ _ =>
    spared_slot.mpr fun k _ => ?_
  refine spared_row.mpr fun a _ => ?_
  refine Easy.bind ?_ (fun _ => (easy_advanceAccount _ _ _).bind fun _ => ?_) _
  · exact .ite ((easy_pushException _ _).bind fun _ => .fail _) (.pure _)
  · exact .ite (easy_pushException _ _) (.pure _)

/-! ### TradeSettled -/

namespace TradeSettled

/-- What an outcome does to a position fits. -/
def FitsCustody (e : TradeSettled) (k : Fin 3) (c : CustodyRow) : SettleOutcome → Prop
  | .settled =>
    if e.side = kSideBuy then
      ∀ base, c.custodyToday = .ok base →
        AverageFits base c.avgPrice e.qty.toInt e.costBasis.toInt ∧
          Fits ((c.pendingBuy k).toInt - e.qty.toInt) ∧ Fits (c.available.toInt + e.qty.toInt)
    else Fits ((c.pendingSell k).toInt - e.qty.toInt)
  | .deliveryFailure =>
    if e.side = kSideBuy then
      Fits ((c.pendingBuy k).toInt - e.qty.toInt) ∧ Fits (c.overdueBuy.toInt + e.qty.toInt)
    else Fits ((c.pendingSell k).toInt - e.qty.toInt) ∧ Fits (c.overdueSell.toInt + e.qty.toInt)
  | .boughtIn =>
    if e.side = kSideBuy then
      Fits (c.overdueBuy.toInt - e.qty.toInt) ∧ Fits (c.available.toInt + e.qty.toInt)
    else Fits (c.overdueSell.toInt - e.qty.toInt)

/-- What an outcome does to the money fits. -/
def FitsCash (e : TradeSettled) (k : Fin 3) (a : AccountRow) : SettleOutcome → Prop
  | .settled => Fits (a.cash.toInt + e.cashAmount.toInt) ∧
      Fits ((a.pending k).toInt - e.cashAmount.toInt)
  | .deliveryFailure => Fits ((a.pending k).toInt - e.cashAmount.toInt) ∧
      Fits (a.overdue.toInt + e.cashAmount.toInt)
  | .boughtIn => Fits (a.overdue.toInt - e.cashAmount.toInt) ∧
      Fits (a.cash.toInt + e.cashAmount.toInt)

/-- The bucket the quantity is taken from. -/
def sourceOf (e : TradeSettled) (k : Fin 3) (c : CustodyRow) : SettleOutcome → Raw
  | .settled | .deliveryFailure => pendingOf e k c
  | .boughtIn => overdueOf e c

/-- The quantity and the cash fit in the buckets between which the outcome moves them. A buy-in
needs no slot of the window. -/
def Bounded (e : TradeSettled) (s : PartitionState) : Prop :=
  ∀ acct s₁, s.internAccount e.account = (some acct, s₁) →
    ∀ inst s₂, s₁.internInstrument e.instrument = (some inst, s₂) →
      ∀ pos, s₂.findPosition acct inst = some pos →
        ∀ outcome, SettleOutcome.ofCode e.outcome = some outcome →
          ∀ k, (outcome ≠ .boughtIn → s₂.window.slotOf e.settlementDate = some k) →
            ∀ c, s₂.custody[pos]? = some c → ¬ e.sourceOf k c outcome < e.qty →
              e.FitsCustody k c outcome ∧
                ∀ a, s₂.accounts[acct]? = some a → e.FitsCash k a outcome

end TradeSettled

/-- What the investor owns costs at most `7 * 10 ^ 18`. -/
theorem CustodyRow.Within.cost {c : CustodyRow} (h : c.Within) {base : Raw}
    (hbase : c.custodyToday = .ok base) : NoPanic (positionCostHalfEven base c.avgPrice) := by
  have hprice := price_bounds h.price
  have hprod := abs_mul_le (h.today.2 base hbase)
    (abs_le.mpr (by omega) : |c.avgPrice.toInt| ≤ 100000000000000)
  exact (mulDiv_bounded (B := 7000000000000000000) (by decide)
    (hprod.trans (by norm_num [kQtyPriceToMoney])) (by norm_num)).1

/-- The condition for the quantity and the price of a settlement. -/
theorem noPanic_settleCustody {e : TradeSettled} {k : Fin 3} {c : CustodyRow} (h : c.Within) :
    NoPanic (settleCustody e k c) ↔ e.FitsCustody k c .settled := by
  unfold settleCustody TradeSettled.FitsCustody
  split_ifs
  · rw [NoPanic, avoids_bind, and_iff_right h.today.1]
    refine forall_congr' fun base => imp_congr_right fun hbase => ?_
    refine (noPanic_bind (numeric_average _ _ _ _) fun _ _ => ?_).trans
      (and_congr_left' (noPanic_average (h.cost hbase)))
    exact noPanic_sub_bind fun _ _ => noPanic_add_ok
  · exact noPanic_sub_ok

/-- The condition for the quantity of a delivery that failed. -/
theorem noPanic_failCustody {e : TradeSettled} {k : Fin 3} {c : CustodyRow} :
    NoPanic (failCustody e k c) ↔ e.FitsCustody k c .deliveryFailure := by
  unfold failCustody TradeSettled.FitsCustody
  split_ifs
  · exact noPanic_sub_bind fun _ _ => noPanic_add_ok
  · exact noPanic_sub_bind fun _ _ => noPanic_add_ok

/-- The condition for the quantity of a buy-in. -/
theorem noPanic_buyInCustody {e : TradeSettled} {k : Fin 3} {c : CustodyRow} :
    NoPanic (buyInCustody e c) ↔ e.FitsCustody k c .boughtIn := by
  unfold buyInCustody TradeSettled.FitsCustody
  split_ifs
  · exact noPanic_sub_bind fun _ _ => noPanic_add_ok
  · exact noPanic_sub_ok

/-- A sum stops for no other reason than a panic. -/
theorem numeric_sumRaw {xs : List Raw} : ∀ {a : Raw}, Numeric (sumRaw a xs) := by
  induction xs with
  | nil => exact fun {a} => avoids_ok a
  | cons x xs ih => exact .bind (numeric_checkedRaw _) fun _ _ => ih

theorem numeric_settleCustody (e : TradeSettled) (k : Fin 3) (c : CustodyRow) :
    Numeric (settleCustody e k c) := by
  unfold settleCustody
  split_ifs
  · refine .bind numeric_sumRaw fun _ _ => .bind (numeric_average _ _ _ _) fun _ _ => ?_
    exact .bind (numeric_checkedRaw _) fun _ _ => numeric_add_ok _ _ _
  · exact numeric_sub_ok _ _ _

theorem numeric_failCustody (e : TradeSettled) (k : Fin 3) (c : CustodyRow) :
    Numeric (failCustody e k c) := by
  unfold failCustody
  split_ifs
  · exact .bind (numeric_checkedRaw _) fun _ _ => numeric_add_ok _ _ _
  · exact .bind (numeric_checkedRaw _) fun _ _ => numeric_add_ok _ _ _

theorem numeric_buyInCustody (e : TradeSettled) (c : CustodyRow) : Numeric (buyInCustody e c) := by
  unfold buyInCustody
  split_ifs
  · exact .bind (numeric_checkedRaw _) fun _ _ => numeric_add_ok _ _ _
  · exact numeric_sub_ok _ _ _

/-- The buckets of an outcome, with what is done after them. -/
theorem spared_settleBuckets {β : Type} {e : Engine} (h : e.s.Within) {x : TradeSettled}
    {acct pos : ℕ} {outcome : SettleOutcome} {f : PUnit → Apply β} (hf : Easy (f ⟨⟩)) :
    Spared (settleBuckets x acct pos outcome >>= f) e ↔
      ∀ k, (outcome ≠ .boughtIn → e.s.window.slotOf x.settlementDate = some k) →
        ∀ c, e.s.custody[pos]? = some c → ¬ x.sourceOf k c outcome < x.qty →
          x.FitsCustody k c outcome ∧
            ∀ a, e.s.accounts[acct]? = some a → x.FitsCash k a outcome := by
  cases outcome with
  | settled =>
    refine Proc.spares_assoc.trans (spared_slot.trans (forall_congr' fun k => ?_))
    refine imp_congr (by simp) (Proc.spares_assoc.trans (spared_row.trans ?_))
    refine forall_congr' fun c => imp_congr_right fun hc => ?_
    refine Proc.spares_assoc.trans (spared_guard.trans (imp_congr_right fun _ => ?_))
    refine Proc.spares_assoc.trans ((spared_modCustody_then
      (P := fun _ => ∀ a, e.s.accounts[acct]? = some a → x.FitsCash k a .settled)
      (numeric_settleCustody x k) fun c c' _ _ => ?_).trans
      (forall_some_eq hc (and_congr_left' (noPanic_settleCustody (h.custodyRow hc)))))
    refine (spared_modAccount_easy hf).trans (forall₂_congr fun a _ => ?_)
    exact noPanic_add_bind fun _ _ => noPanic_sub_ok
  | deliveryFailure =>
    refine Proc.spares_assoc.trans (spared_slot.trans (forall_congr' fun k => ?_))
    refine imp_congr (by simp) (Proc.spares_assoc.trans (spared_row.trans ?_))
    refine forall_congr' fun c => imp_congr_right fun hc => ?_
    refine Proc.spares_assoc.trans (spared_guard.trans (imp_congr_right fun _ => ?_))
    refine Proc.spares_assoc.trans ((spared_modCustody_then
      (P := fun _ => ∀ a, e.s.accounts[acct]? = some a → x.FitsCash k a .deliveryFailure)
      (numeric_failCustody x k) fun c c' _ _ => ?_).trans
      (forall_some_eq hc (and_congr_left' noPanic_failCustody)))
    refine Proc.spares_assoc.trans ((spared_modAccount_easy ?_).trans (forall₂_congr fun a _ => ?_))
    · exact (easy_pushException _ _).bind fun _ => hf
    · exact noPanic_sub_bind fun _ _ => noPanic_add_ok
  | boughtIn =>
    -- the slot plays no part in this outcome
    have hslot : (∀ k : Fin 3, (SettleOutcome.boughtIn ≠ .boughtIn →
        e.s.window.slotOf x.settlementDate = some k) → ∀ c, e.s.custody[pos]? = some c →
        ¬ x.sourceOf k c .boughtIn < x.qty → x.FitsCustody k c .boughtIn ∧
          ∀ a, e.s.accounts[acct]? = some a → x.FitsCash k a .boughtIn) ↔
        ∀ c, e.s.custody[pos]? = some c → ¬ overdueOf x c < x.qty →
          x.FitsCustody 0 c .boughtIn ∧
            ∀ a, e.s.accounts[acct]? = some a → x.FitsCash 0 a .boughtIn :=
      ⟨fun hall => hall 0 fun hne => absurd rfl hne, fun hall _ _ => hall⟩
    refine Iff.trans ?_ hslot.symm
    refine Proc.spares_assoc.trans (spared_row.trans ?_)
    refine forall_congr' fun c => imp_congr_right fun hc => ?_
    refine Proc.spares_assoc.trans (spared_guard.trans (imp_congr_right fun _ => ?_))
    refine Proc.spares_assoc.trans ((spared_modCustody_then
      (P := fun _ => ∀ a, e.s.accounts[acct]? = some a → x.FitsCash 0 a .boughtIn)
      (numeric_buyInCustody x) fun c c' _ _ => ?_).trans
      (forall_some_eq hc (and_congr_left' noPanic_buyInCustody)))
    refine (spared_modAccount_easy hf).trans (forall₂_congr fun a _ => ?_)
    exact noPanic_sub_bind fun _ _ => noPanic_add_ok

/-- What a settlement may panic on. -/
theorem spared_tradeSettled {e : Engine} (h : e.s.Within) (ev : EventView) :
    Spared (applyTradeSettled ev) e ↔
      (Tmpl.tradeSettled.blockLength ≤ ev.payload.length →
        (TradeSettled.ofBytes ev.payload).Bounded e.s) := by
  unfold applyTradeSettled TradeSettled.Bounded
  refine spared_decode.trans (imp_congr_right fun _ => ?_)
  generalize TradeSettled.ofBytes ev.payload = x
  refine spared_account.trans (forall₂_congr fun acct s₁ => imp_congr_right fun h₁ => ?_)
  refine spared_instrument.trans (forall₂_congr fun inst s₂ => imp_congr_right fun h₂ => ?_)
  have hwithin : s₂.Within := (h.account h₁).instrument h₂
  refine spared_read.trans
    (spared_orFail.trans (forall_congr' fun pos => imp_congr_right fun _ => ?_))
  refine spared_orFail.trans (forall_congr' fun outcome => imp_congr_right fun _ => ?_)
  refine spared_settleBuckets (e := { e with s := s₂ }) hwithin ?_
  refine (easy_advanceAccount _ _ _).bind fun _ => ?_
  exact (easy_checkBuckets pos).bind fun _ => easy_publicaPosicao ev pos

/-! ### CorporateActionApplied -/

namespace CorporateActionApplied

/-- The leftovers of a split fit, and so does the price; the scaled position, added up again, and
its difference from `base` fit too. -/
def SplitFits (num den : UInt32) (base : Raw) (c : CustodyRow) : Prop :=
  Fits (splitLeftovers num den c) ∧ QuotientFits (c.avgPrice.toInt * den.toNat) num.toNat ∧
    SumFits (wholeShares c.available num den) [wholeShares c.blocked num den,
      splitLeftovers num den c, scaledTotal c.overdueSell num den,
      scaledTotal (c.pendingSell 0) num den, scaledTotal (c.pendingSell 1) num den,
      scaledTotal (c.pendingSell 2) num den, -base.toInt]

/-- A bonus of `whole` shares and a fraction fits. -/
def BonusFits (e : CorporateActionApplied) (base : Raw) (c : CustodyRow) (whole rest : ℤ) : Prop :=
  QuotientFits (whole * e.unitCost.toInt) kQtyOne ∧
    AverageFits base c.avgPrice whole (quotient (whole * e.unitCost.toInt) kQtyOne) ∧
    Fits (c.available.toInt + whole) ∧ Fits (c.leftovers.toInt + rest) ∧ Fits (whole + rest)

/-- What an action computes fits, as far as it gets; where it is not turned down, `after` holds
too. -/
def FitsOn (e : CorporateActionApplied) (base : Raw) (c : CustodyRow) (a : Option AccountRow)
    (after : Prop) : ActionType → Prop
  | .split | .reverseSplit => SplitFits e.factorNum e.factorDen base c ∧ after
  | .bonus =>
    let whole := wholeShares base e.factorNum e.factorDen - base.toInt
    Fits whole ∧
      (0 ≤ whole → e.BonusFits base c whole (fraction base e.factorNum e.factorDen) ∧ after)
  | .subscription =>
    (e.factorNum ≠ 0 ∧ e.factorDen ≠ 0 →
        e.qtyDelta.toInt ≤ wholeShares base e.factorNum e.factorDen) →
      AverageFits base c.avgPrice e.qtyDelta.toInt e.cashDelta.toInt ∧
        Fits (c.available.toInt + e.qtyDelta.toInt) ∧
        ∀ x ∈ a, Fits (x.cash.toInt - e.cashDelta.toInt) ∧ after
  | .leftoversAuction => ∀ x ∈ a, Fits (x.cash.toInt + e.cashDelta.toInt) ∧ after

/-- What the action computes and the income after the tax fit. -/
def Bounded (e : CorporateActionApplied) (s : PartitionState) : Prop :=
  ∀ acct s₁, s.internAccount e.account = (some acct, s₁) →
    ∀ inst s₂, s₁.internInstrument e.instrument = (some inst, s₂) →
      ∀ pos s₃, s₂.internPosition acct inst = (some pos, s₃) →
        ∀ type, ActionType.ofCode e.type = some type → validateAction e type = true →
          (s₃.appliedActions.insert e.actionId acct).1 = .added →
            ∀ c, s₃.custody[pos]? = some c → ∀ base, c.custodyToday = .ok base →
              e.FitsOn base c s₃.accounts[acct]? (∀ a ∈ s₃.accounts[acct]?,
                Fits (a.incomeReceivable.toInt - e.withheldTax.toInt)) type

end CorporateActionApplied

theorem noPanic_bind_ok {α β : Type} {x : Exec α} {a : α} {f : α → Exec β} (h : x = .ok a) :
    NoPanic (x >>= f) ↔ NoPanic (f a) := by
  rw [h]
  rfl

theorem numeric_scalePrice (p : Raw) (num den : UInt32) :
    Numeric (scalePriceHalfEven p num den) := by
  unfold scalePriceHalfEven
  split_ifs
  · simp [Numeric, Abort.Panic]
  · exact numeric_mulDiv _ _ _ _

/-- A computation in front, where the condition of the rest does not depend on its value. -/
theorem spared_lift_then {α β : Type} {e : Engine} {x : Exec α} {f : α → Apply β} {P : Prop}
    (hx : Numeric x) (h : ∀ a, x = .ok a → (Spared (f a) e ↔ P)) :
    Spared (Proc.lift x >>= f) e ↔ NoPanic x ∧ P := by
  refine spared_lift.trans (and_congr_right fun hno => ⟨fun hall => ?_, ?_⟩)
  · obtain ⟨a, ha⟩ := exists_ok hx hno
    exact (h a ha).mp (hall a ha)
  · exact fun hP a ha => (h a ha).mpr hP

/-- A sum with one more term. -/
theorem sumFits_append {xs : List ℤ} {y : ℤ} : ∀ {a : ℤ},
    SumFits a (xs ++ [y]) ↔ SumFits a xs ∧ Fits (a + xs.sum + y) := by
  induction xs with
  | nil =>
    intro a
    simp [SumFits]
  | cons x xs ih =>
    intro a
    rw [List.cons_append, SumFits, SumFits, ih, List.sum_cons, ← add_assoc, and_assoc]

section Split

variable {num den : UInt32} {c : CustodyRow}

/-- A scaled bucket is stored without a check; the leftovers with the fractions and the price are
checked. -/
theorem noPanic_splitCustody (hnum : num ≠ 0) (hden : den ≠ 0) :
    NoPanic (splitCustody num den c) ↔
      Fits (CorporateActionApplied.splitLeftovers num den c) ∧
        QuotientFits (c.avgPrice.toInt * den.toNat) num.toNat := by
  obtain ⟨av, s₁, hav, -, hs₁⟩ := scaleQtyTrunc_eq (q := c.available) hnum hden
  obtain ⟨bl, s₂, hbl, -, hs₂⟩ := scaleQtyTrunc_eq (q := c.blocked) hnum hden
  obtain ⟨lo, s₃, hlo, hwhole, hs₃⟩ := scaleQtyTrunc_eq (q := c.leftovers) hnum hden
  obtain ⟨-, -, -, hf₁, -⟩ := scaledTotal_split c.available num den
  obtain ⟨-, -, -, hf₂, -⟩ := scaledTotal_split c.blocked num den
  obtain ⟨hlow, hhigh, hsum, -, -⟩ := scaledTotal_split c.leftovers num den
  -- the two fractions are below one share each, so their sum cannot overflow
  have hf₁ := abs_lt.mp hf₁
  have hf₂ := abs_lt.mp hf₂
  unfold kQtyOne at hf₁ hf₂
  have hkeep : ∀ q, scaleQtyKeepFraction q num den = .ok (Int64.ofInt (scaledRaw q num den)) :=
    fun q => scaleQtyKeepFraction_eq hnum hden
  -- the price is divided by the factor, which may not fit
  have hprice : NoPanic (scalePriceHalfEven c.avgPrice num den) ↔
      QuotientFits (c.avgPrice.toInt * den.toNat) num.toNat := by
    have hpos : 0 < num.toNat := Nat.pos_of_ne_zero fun h0 => hnum (UInt32.toNat_inj.mp h0)
    have hval : (Int64.ofInt den.toNat).toInt = den.toNat := by
      have := den.toNat_lt
      exact Int64.toInt_ofInt_of_le (by omega) (by omega)
    unfold scalePriceHalfEven
    rw [if_neg (by simp [hnum, hden]), noPanic_mulDiv (by omega), hval]
  unfold splitCustody
  refine (noPanic_bind_ok hav).trans ((noPanic_bind_ok hbl).trans ?_)
  refine (noPanic_add_bind (P := _ ∧ _) fun rest hrest => ?_).trans (and_iff_right ?_)
  · iterate 8 refine (noPanic_bind_ok (hkeep _)).trans ?_
    refine (noPanic_bind_ok hlo).trans ?_
    refine (noPanic_add_bind (P := _ ∧ _) fun left hleft => ?_).trans (and_iff_right ?_)
    · have hval : left.toInt + rest.toInt = CorporateActionApplied.splitLeftovers num den c := by
        rw [hleft, hrest, hwhole, hs₁, hs₂, hs₃, hsum]
        rfl
      rw [← hval]
      refine noPanic_add_bind fun _ _ => ?_
      exact (noPanic_bind (P := True) (numeric_scalePrice _ _ _) fun _ _ =>
        iff_true_intro (avoids_ok _)).trans ((and_iff_left trivial).trans hprice)
    · rw [hwhole, hs₃, hsum]
      exact fits_iff.mpr ⟨hlow, hhigh⟩
  · rw [hs₁, hs₂]
    exact fits_iff.mpr (by omega)

/-- The position after a split, bucket by bucket. -/
theorem splitCustody_sum {c' : CustodyRow} (h : splitCustody num den c = .ok c') :
    c'.available.toInt = wholeShares c.available num den ∧
      [c'.blocked, c'.leftovers, c'.overdueSell, c'.pendingSell 0, c'.pendingSell 1,
        c'.pendingSell 2].map Int64.toInt = [wholeShares c.blocked num den,
        CorporateActionApplied.splitLeftovers num den c, scaledTotal c.overdueSell num den,
        scaledTotal (c.pendingSell 0) num den, scaledTotal (c.pendingSell 1) num den,
        scaledTotal (c.pendingSell 2) num den] := by
  have hsplit := splitOf_of_splitCustody h
  refine ⟨hsplit.available, ?_⟩
  simp only [List.map_cons, List.map_nil, hsplit.blocked, hsplit.leftovers, hsplit.overdueSell,
    hsplit.pendingSell]

end Split

section Actions

open CorporateActionApplied

variable {β : Type} {e : Engine} {x : CorporateActionApplied} {acct pos : ℕ} {base : Raw}
  {c : CustodyRow} {after : Prop} {f : Raw → Apply β}

theorem numeric_scaleTrunc (q : Raw) (num den : UInt32) : Numeric (scaleQtyTrunc q num den) := by
  unfold scaleQtyTrunc
  split_ifs
  · simp [Numeric, Abort.Panic]
  · exact .bind (numeric_mulDiv _ _ _ _) fun _ _ => avoids_ok _

theorem numeric_scaleKeep (q : Raw) (num den : UInt32) :
    Numeric (scaleQtyKeepFraction q num den) := by
  unfold scaleQtyKeepFraction
  split_ifs
  · simp [Numeric, Abort.Panic]
  · exact numeric_mulDiv _ _ _ _

theorem numeric_splitCustody (num den : UInt32) (c : CustodyRow) :
    Numeric (splitCustody num den c) := by
  unfold splitCustody
  refine .bind (numeric_scaleTrunc _ _ _) fun _ _ => .bind (numeric_scaleTrunc _ _ _) fun _ _ => ?_
  refine .bind (numeric_checkedRaw _) fun _ _ => ?_
  iterate 8 refine .bind (numeric_scaleKeep _ _ _) fun _ _ => ?_
  refine .bind (numeric_scaleTrunc _ _ _) fun _ _ => .bind (numeric_checkedRaw _) fun _ _ => ?_
  refine .bind (numeric_checkedRaw _) fun _ _ => .bind (numeric_scalePrice _ _ _) fun _ _ => ?_
  exact avoids_ok _

/-- A split: the scaled row, and what the investor owns after it. -/
theorem spared_actSplit (hc : e.s.custody[pos]? = some c) (hnum : x.factorNum ≠ 0)
    (hden : x.factorDen ≠ 0) (hafter : ∀ delta (e' : Engine),
      e'.s.accounts.map AccountRow.incomeReceivable = e.s.accounts.map AccountRow.incomeReceivable →
        (Spared (f delta) e' ↔ after)) :
    Spared (actSplit x pos base >>= f) e ↔ SplitFits x.factorNum x.factorDen base c ∧ after := by
  -- the sums of the handler, in its order
  set sums : List ℤ := [wholeShares c.blocked x.factorNum x.factorDen,
    splitLeftovers x.factorNum x.factorDen c, scaledTotal c.overdueSell x.factorNum x.factorDen,
    scaledTotal (c.pendingSell 0) x.factorNum x.factorDen,
    scaledTotal (c.pendingSell 1) x.factorNum x.factorDen,
    scaledTotal (c.pendingSell 2) x.factorNum x.factorDen] with hsums
  set first := wholeShares c.available x.factorNum x.factorDen
  -- the last sum subtracts the position before the split
  have hsplit : SplitFits x.factorNum x.factorDen base c ∧ after ↔
      (Fits (splitLeftovers x.factorNum x.factorDen c) ∧
        QuotientFits (c.avgPrice.toInt * x.factorDen.toNat) x.factorNum.toNat) ∧
      SumFits first sums ∧ Fits (first + sums.sum - base.toInt) ∧ after := by
    have happend : SumFits first [wholeShares c.blocked x.factorNum x.factorDen,
        splitLeftovers x.factorNum x.factorDen c, scaledTotal c.overdueSell x.factorNum x.factorDen,
        scaledTotal (c.pendingSell 0) x.factorNum x.factorDen,
        scaledTotal (c.pendingSell 1) x.factorNum x.factorDen,
        scaledTotal (c.pendingSell 2) x.factorNum x.factorDen, -base.toInt] ↔
        SumFits first sums ∧ Fits (first + sums.sum + -base.toInt) :=
      @sumFits_append sums _ _
    rw [SplitFits, happend, ← sub_eq_add_neg]
    tauto
  rw [hsplit]
  refine Proc.spares_assoc.trans ((spared_modCustody_then
    (P := fun _ => SumFits first sums ∧ Fits (first + sums.sum - base.toInt) ∧ after)
    (numeric_splitCustody _ _) fun c₀ c' hc₀ hc' => ?_).trans
    (forall_some_eq hc (and_congr_left' (noPanic_splitCustody hnum hden))))
  obtain rfl : c₀ = c := Option.some.inj (hc₀.symm.trans hc)
  obtain ⟨hfirst, hrest⟩ := splitCustody_sum hc'
  have hc' : (e.s.custody.set pos c')[pos]? = some c' :=
    List.getElem?_set_self (List.getElem?_eq_some_iff.mp hc).1
  -- the row is read again after the split
  refine Proc.spares_assoc.trans (spared_row.trans (forall_some_eq hc' ?_))
  refine Proc.spares_assoc.trans ((spared_lift_then
    (P := Fits (first + sums.sum - base.toInt) ∧ after) numeric_sumRaw fun today htoday => ?_).trans
    (and_congr_left' ?_))
  · refine (spared_lift_then (P := after) (numeric_checkedRaw _) fun delta _ => ?_).trans ?_
    · exact hafter delta _ rfl
    · rw [noPanic_checkedRaw, sumRaw_eq_ok htoday, hfirst, hrest, hsums]
  · refine noPanic_sumRaw.trans (iff_of_eq ?_)
    rw [hfirst, hrest, hsums]

/-- A bonus whose shares are not taken away. -/
theorem noPanic_bonusRow (h : c.Within) (hbase : c.custodyToday = .ok base)
    {whole rest cost : Raw} :
    NoPanic (do
      let avg ← averagePriceHalfEven base c.avgPrice whole cost
      let av ← Fixed.add c.available whole
      let lo ← Fixed.add c.leftovers rest
      .ok { c with avgPrice := avg, available := av, leftovers := lo } : Exec CustodyRow) ↔
      AverageFits base c.avgPrice whole.toInt cost.toInt ∧ Fits (c.available.toInt + whole.toInt) ∧
        Fits (c.leftovers.toInt + rest.toInt) := by
  refine (noPanic_bind (numeric_average _ _ _ _) fun _ _ => ?_).trans
    (and_congr_left' (noPanic_average (h.cost hbase)))
  exact noPanic_add_bind fun _ _ => noPanic_add_ok

/-- The condition for a bonus, and for what follows it if it is not turned down. -/
theorem spared_actBonus (h : e.s.Within) (hc : e.s.custody[pos]? = some c)
    (hbase : c.custodyToday = .ok base) (hnum : x.factorNum ≠ 0) (hden : x.factorDen ≠ 0)
    (hafter : ∀ delta (e' : Engine),
      e'.s.accounts.map AccountRow.incomeReceivable = e.s.accounts.map AccountRow.incomeReceivable →
        (Spared (f delta) e' ↔ after)) :
    Spared (actBonus x pos base >>= f) e ↔
      Fits (wholeShares base x.factorNum x.factorDen - base.toInt) ∧
        (0 ≤ wholeShares base x.factorNum x.factorDen - base.toInt →
          x.BonusFits base c (wholeShares base x.factorNum x.factorDen - base.toInt)
            (fraction base x.factorNum x.factorDen) ∧ after) := by
  obtain ⟨total, rest, hscale, htotal, hrest⟩ := scaleQtyTrunc_eq (q := base) hnum hden
  rw [← htotal, ← hrest]
  refine Proc.spares_assoc.trans (spared_lift.trans ?_)
  rw [hscale]
  refine (and_iff_right (avoids_ok _)).trans ((forall_ok_eq (total, rest)).trans ?_)
  refine Proc.spares_assoc.trans ((spared_lift_then (P := 0 ≤ total.toInt - base.toInt → _)
    (numeric_checkedRaw _) fun whole hwhole => ?_).trans (and_congr_left' noPanic_checkedRaw))
  -- a bonus that would take shares away ends at the guard
  have hw : whole.toInt = total.toInt - base.toInt := checkedRaw_eq_ok hwhole
  rw [← hw]
  refine Proc.spares_assoc.trans (spared_guard.trans (imp_congr ?_ ?_))
  · rw [Int64.lt_iff_toInt_lt, Int64.toInt_zero, not_lt]
  · rw [BonusFits, and_assoc]
    refine Proc.spares_assoc.trans ((spared_lift_then (P := _ ∧ _) (numeric_mulDiv _ _ _ _)
      fun cost hcost => ?_).trans (and_congr_left' (noPanic_mulDiv (by decide))))
    rw [← mulDiv_eq_quotient (by decide) hcost]
    -- the sum that is published comes after the row is written
    have hrow : (AverageFits base c.avgPrice whole.toInt cost.toInt ∧
        Fits (c.available.toInt + whole.toInt) ∧ Fits (c.leftovers.toInt + rest.toInt) ∧
        Fits (whole.toInt + rest.toInt)) ∧ after ↔
        (AverageFits base c.avgPrice whole.toInt cost.toInt ∧
        Fits (c.available.toInt + whole.toInt) ∧ Fits (c.leftovers.toInt + rest.toInt)) ∧
        Fits (whole.toInt + rest.toInt) ∧ after := by tauto
    rw [hrow]
    refine Proc.spares_assoc.trans ((spared_modCustody_then
      (P := fun _ => Fits (whole.toInt + rest.toInt) ∧ after) (fun c => ?_) fun _ _ _ _ => ?_).trans
      (forall_some_eq hc (and_congr_left' (noPanic_bonusRow (h.custodyRow hc) hbase))))
    · refine .bind (numeric_average _ _ _ _) fun _ _ => .bind (numeric_checkedRaw _) fun _ _ => ?_
      exact numeric_add_ok _ _ _
    · refine (spared_lift_then (P := after) (numeric_checkedRaw _) fun delta _ => ?_).trans
        (and_congr_left' noPanic_checkedRaw)
      exact hafter delta _ rfl

/-- The money of an action on its account, and what comes after it. -/
theorem spared_actMoney {g : AccountRow → Exec Raw} (hg : ∀ a, Numeric (g a)) {f : PUnit → Apply β}
    (hafter : ∀ (e' : Engine),
      e'.s.accounts.map AccountRow.incomeReceivable = e.s.accounts.map AccountRow.incomeReceivable →
        (Spared (f ⟨⟩) e' ↔ after)) :
    Spared (modAccount acct (fun a => do .ok { a with cash := ← g a }) >>= f) e ↔
      ∀ a ∈ e.s.accounts[acct]?, NoPanic (g a) ∧ after := by
  refine (spared_modAccount_then (P := fun _ => after)
    (fun a => .bind (hg a) fun _ _ => avoids_ok _) fun a a' ha ha' => ?_).trans ?_
  · obtain ⟨m, -, ha'⟩ := except_bind_eq_ok.mp ha'
    refine hafter _ ?_
    have hset : (e.s.accounts.set acct a').map AccountRow.incomeReceivable =
        e.s.accounts.map AccountRow.incomeReceivable :=
      map_set_of_eq ha (by rw [← Except.ok.inj ha'])
    exact hset
  · refine forall₂_congr fun a _ => and_congr_left' ?_
    exact (noPanic_bind (P := True) (hg a) fun _ _ => iff_true_intro (avoids_ok _)).trans
      (and_iff_left trivial)

/-- The condition for a subscription, and for what follows it if it is not turned down. -/
theorem spared_actSubscription (h : e.s.Within) (hc : e.s.custody[pos]? = some c)
    (hbase : c.custodyToday = .ok base) (hafter : ∀ delta (e' : Engine),
      e'.s.accounts.map AccountRow.incomeReceivable = e.s.accounts.map AccountRow.incomeReceivable →
        (Spared (f delta) e' ↔ after)) :
    Spared (actSubscription x acct pos base >>= f) e ↔
      x.FitsOn base c e.s.accounts[acct]? after .subscription := by
  -- the comparison with the rights panics nowhere; it may end the handler
  have hrights : ∀ {g : PUnit → Apply β}, Spared ((if x.factorNum ≠ 0 ∧ x.factorDen ≠ 0 then do
      let scaled ← Proc.lift (scaleQtyTrunc base x.factorNum x.factorDen)
      Proc.guard (¬ scaled.1 < x.qtyDelta) (.fail .qtyMismatch (UInt32.ofNat pos))
      else pure ⟨⟩) >>= g) e ↔ ((x.factorNum ≠ 0 ∧ x.factorDen ≠ 0 →
        x.qtyDelta.toInt ≤ wholeShares base x.factorNum x.factorDen) → Spared (g ⟨⟩) e) := by
    intro g
    by_cases hratio : x.factorNum ≠ 0 ∧ x.factorDen ≠ 0
    · obtain ⟨rights, rest, hscale, hval, -⟩ := scaleQtyTrunc_eq (q := base) hratio.1 hratio.2
      rw [if_pos hratio, forall_prop_of_true hratio, ← hval]
      refine Proc.spares_assoc.trans (spared_lift.trans ?_)
      rw [hscale]
      refine (and_iff_right (avoids_ok _)).trans ((forall_ok_eq (rights, rest)).trans ?_)
      refine spared_guard.trans (imp_congr ?_ Iff.rfl)
      rw [Int64.lt_iff_toInt_lt, not_lt]
    · rw [if_neg hratio]
      refine Iff.trans ?_ (forall_prop_of_true fun hyes => absurd hyes hratio).symm
      exact ⟨fun hs => (Proc.spares_bind.mp hs).2 ⟨⟩ e rfl, fun hs =>
        Proc.spares_bind.mpr ⟨Proc.spares_pure _, fun a e' ha => by cases ha; exact hs⟩⟩
  refine Proc.spares_assoc.trans (hrights.trans (imp_congr_right fun _ => ?_))
  -- what is left of the position are the average price and one sum
  have hrow : ∀ c : CustodyRow, c.Within → c.custodyToday = .ok base → (NoPanic (do
      let avg ← averagePriceHalfEven base c.avgPrice x.qtyDelta x.cashDelta
      let av ← Fixed.add c.available x.qtyDelta
      .ok { c with avgPrice := avg, available := av } : Exec CustodyRow) ↔
      AverageFits base c.avgPrice x.qtyDelta.toInt x.cashDelta.toInt ∧
        Fits (c.available.toInt + x.qtyDelta.toInt)) := fun c hw hb =>
    (noPanic_bind (numeric_average _ _ _ _) fun _ _ => noPanic_add_ok).trans
      (and_congr_left' (noPanic_average (hw.cost hb)))
  rw [← and_assoc]
  refine Proc.spares_assoc.trans ((spared_modCustody_then (P := fun _ => ∀ a ∈ e.s.accounts[acct]?,
    Fits (a.cash.toInt - x.cashDelta.toInt) ∧ after)
    (fun c => .bind (numeric_average _ _ _ _) fun _ _ => numeric_add_ok _ _ _)
    fun c₀ c' _ _ => ?_).trans
    (forall_some_eq hc (and_congr_left' (hrow c (h.custodyRow hc) hbase))))
  -- and of the account the money that is paid
  refine Proc.spares_assoc.trans ((spared_actMoney (fun a => numeric_checkedRaw _) ?_).trans
    (forall₂_congr fun a _ => and_congr_left' noPanic_checkedRaw))
  intro e' he'
  refine Iff.trans ⟨fun hs => (Proc.spares_bind.mp hs).2 _ e' rfl, fun hs =>
    Proc.spares_bind.mpr ⟨Proc.spares_pure _, ?_⟩⟩ (hafter x.qtyDelta e' he')
  rintro _ _ ⟨⟩
  exact hs

/-- The condition for an auction of leftovers, and for what follows it. -/
theorem spared_actAuction (h : e.s.Within) (hc : e.s.custody[pos]? = some c)
    (hafter : ∀ delta (e' : Engine),
      e'.s.accounts.map AccountRow.incomeReceivable = e.s.accounts.map AccountRow.incomeReceivable →
        (Spared (f delta) e' ↔ after)) :
    Spared (actAuction x acct pos >>= f) e ↔
      x.FitsOn base c e.s.accounts[acct]? after .leftoversAuction := by
  refine Proc.spares_assoc.trans (spared_row.trans (forall_some_eq hc ?_))
  have hneg : NoPanic (Fixed.neg c.leftovers) := by
    have := abs_le.mp (h.custodyRow hc).leftovers
    exact noPanic_checkedRaw.mpr (fits_iff.mpr (by omega))
  refine Proc.spares_assoc.trans ((spared_lift_then (numeric_checkedRaw _) fun delta _ => ?_).trans
    (and_iff_right hneg))
  refine Proc.spares_assoc.trans ((spared_modCustody_then
    (P := fun _ => ∀ a ∈ e.s.accounts[acct]?, Fits (a.cash.toInt + x.cashDelta.toInt) ∧ after)
    (fun c => avoids_ok _) fun c₀ c' _ _ => ?_).trans
    (forall_some_eq hc (and_iff_right (avoids_ok _))))
  refine Proc.spares_assoc.trans ((spared_actMoney (fun a => numeric_checkedRaw _) ?_).trans
    (forall₂_congr fun a _ => and_congr_left' noPanic_checkedRaw))
  intro e' he'
  refine Iff.trans ⟨fun hs => (Proc.spares_bind.mp hs).2 _ e' rfl, fun hs =>
    Proc.spares_bind.mpr ⟨Proc.spares_pure _, ?_⟩⟩ (hafter delta e' he')
  rintro _ _ ⟨⟩
  exact hs

/-- What an action may panic on, and what comes after it. -/
theorem spared_actOn (h : e.s.Within) (hc : e.s.custody[pos]? = some c)
    (hbase : c.custodyToday = .ok base) {type : ActionType} (hvalid : validateAction x type = true)
    (hafter : ∀ delta (e' : Engine),
      e'.s.accounts.map AccountRow.incomeReceivable = e.s.accounts.map AccountRow.incomeReceivable →
        (Spared (f delta) e' ↔ after)) :
    Spared (actOn x acct pos base type >>= f) e ↔
      x.FitsOn base c e.s.accounts[acct]? after type := by
  cases type with
  | split =>
    have hne : x.factorNum ≠ 0 ∧ x.factorDen ≠ 0 := of_decide_eq_true hvalid
    exact spared_actSplit hc hne.1 hne.2 hafter
  | reverseSplit =>
    have hne : x.factorNum ≠ 0 ∧ x.factorDen ≠ 0 := of_decide_eq_true hvalid
    exact spared_actSplit hc hne.1 hne.2 hafter
  | bonus =>
    have hne : x.factorNum ≠ 0 ∧ x.factorDen ≠ 0 := of_decide_eq_true hvalid
    exact spared_actBonus h hc hbase hne.1 hne.2 hafter
  | subscription => exact spared_actSubscription h hc hbase hafter
  | leftoversAuction => exact spared_actAuction h hc hafter

end Actions

/-- Behind the consumption of a key, the key is a new one. -/
theorem spared_consume {β : Type} {e : Engine} {actionId : UInt64}
    {g : PartitionState → OpenTable.Inserted Unit × PartitionState} {f : PUnit → Apply β} :
    Spared ((ask g >>= refusedBy actionId) >>= f) e ↔
      ((g e.s).1 = .added → Spared (f ⟨⟩) { e with s := (g e.s).2 }) := by
  refine Proc.spares_assoc.trans (spared_ask.trans ?_)
  cases hg : (g e.s).1 with
  | added =>
    refine ⟨fun hs _ => (Proc.spares_bind.mp hs).2 ⟨⟩ _ rfl, fun hs => ?_⟩
    refine Proc.spares_bind.mpr ⟨Proc.spares_pure _, ?_⟩
    rintro _ _ ⟨⟩
    exact hs rfl
  | present =>
    refine iff_of_true ?_ fun h => (by cases h)
    exact Proc.spares_bind.mpr ⟨Proc.spares_fail _, fun _ _ h => (by cases h)⟩
  | full =>
    refine iff_of_true ?_ fun h => (by cases h)
    exact Proc.spares_bind.mpr ⟨Proc.spares_fail _, fun _ _ h => (by cases h)⟩

/-- What a corporate action may panic on. -/
theorem spared_corporateAction {e : Engine} (h : e.s.Within) (ev : EventView) :
    Spared (applyCorporateAction ev) e ↔
      (Tmpl.corporateActionApplied.blockLength ≤ ev.payload.length →
        (CorporateActionApplied.ofBytes ev.payload).Bounded e.s) := by
  unfold applyCorporateAction CorporateActionApplied.Bounded
  refine spared_decode.trans (imp_congr_right fun _ => ?_)
  generalize CorporateActionApplied.ofBytes ev.payload = x
  refine spared_account.trans (forall₂_congr fun acct s₁ => imp_congr_right fun h₁ => ?_)
  refine spared_instrument.trans (forall₂_congr fun inst s₂ => imp_congr_right fun h₂ => ?_)
  refine spared_position.trans (forall₂_congr fun pos s₃ => imp_congr_right fun h₃ => ?_)
  have hwithin : s₃.Within := ((h.account h₁).instrument h₂).position h₃
  refine spared_orFail.trans (forall_congr' fun type => imp_congr_right fun _ => ?_)
  refine spared_guard.trans (imp_congr_right fun hvalid => ?_)
  refine spared_consume.trans (imp_congr_right fun _ => ?_)
  refine spared_row.trans (forall_congr' fun c => imp_congr_right fun hc => ?_)
  refine spared_lift.trans ((and_iff_right (hwithin.custodyRow hc).today.1).trans ?_)
  refine forall_congr' fun base => imp_congr_right fun hbase => ?_
  have hwithin' : { s₃ with
      appliedActions := (s₃.appliedActions.insert x.actionId acct).2 }.Within :=
    ⟨hwithin.custody, hwithin.accounts⟩
  refine spared_actOn (e := ⟨_, e.outbox⟩) hwithin' hc hbase hvalid fun delta e' he' => ?_
  refine (spared_modAccount_easy ?_).trans ?_
  · refine Easy.bind (.ite (easy_pushException _ _) (.pure _)) fun _ => ?_
    exact (easy_checkBuckets pos).bind fun _ => easy_publicaPosicao ev pos
  · -- the action has left the income of the account alone
    have hincome : ∀ i : ℕ, (e'.s.accounts[i]?).map AccountRow.incomeReceivable =
        (s₃.accounts[i]?).map AccountRow.incomeReceivable := fun i => by
      rw [← List.getElem?_map, ← List.getElem?_map, he']
    constructor
    · intro hall a ha
      obtain ⟨a', ha', heq⟩ := Option.map_eq_some_iff.mp
        ((hincome acct).trans (congrArg _ (Option.mem_def.mp ha)))
      exact heq ▸ noPanic_sub_ok.mp (hall a' ha')
    · intro hall a' ha'
      obtain ⟨a, ha, heq⟩ := Option.map_eq_some_iff.mp ((hincome acct).symm.trans (congrArg _ ha'))
      exact noPanic_sub_ok.mpr (heq ▸ hall a ha)

/-! ### DividendPaid -/

namespace DividendPaid

/-- The gross amount that the position stands for. -/
def expected (e : DividendPaid) : Raw :=
  Int64.ofInt (quotient (e.qtyBasis.toInt * e.ratePerShare.toInt) kQtyOne)

/-- The gross amount is not the expected one. -/
def Differs (e : DividendPaid) : Prop :=
  100 < e.grossAmount - e.expected ∨ e.grossAmount - e.expected < -100

def FitsCash (e : DividendPaid) (a : AccountRow) : Prop :=
  if e.stage = kStageAccrued then Fits (a.incomeReceivable.toInt + e.netAmount.toInt)
  else Fits (a.incomeReceivable.toInt - e.netAmount.toInt) ∧
    Fits (a.cash.toInt + e.netAmount.toInt)

/-- The net amount, the expected gross amount and the money of the account fit. -/
def Bounded (e : DividendPaid) (s : PartitionState) : Prop :=
  ∀ acct s₁, s.internAccount e.account = (some acct, s₁) →
    Fits (e.grossAmount.toInt - e.withheldTax.toInt) ∧
      (e.grossAmount.toInt - e.withheldTax.toInt = e.netAmount.toInt →
        qtyInRange e.qtyBasis = true ∧ moneyInRange e.ratePerShare = true →
          QuotientFits (e.qtyBasis.toInt * e.ratePerShare.toInt) kQtyOne ∧
            (¬ e.Differs → (s₁.appliedIncome.insert e.actionId acct).1 = .added →
              ∀ a, s₁.accounts[acct]? = some a → e.FitsCash a))

end DividendPaid

/-- The condition for the money of an income. -/
theorem noPanic_creditIncome {e : DividendPaid} {a : AccountRow} :
    NoPanic (creditIncome e a) ↔ e.FitsCash a := by
  unfold creditIncome DividendPaid.FitsCash
  split_ifs
  · exact noPanic_add_ok
  · exact noPanic_sub_bind fun _ _ => noPanic_add_ok

/-- What an income may panic on. -/
theorem spared_dividendPaid {e : Engine} (ev : EventView) :
    Spared (applyDividendPaid ev) e ↔
      (Tmpl.dividendPaid.blockLength ≤ ev.payload.length →
        (DividendPaid.ofBytes ev.payload).Bounded e.s) := by
  unfold applyDividendPaid DividendPaid.Bounded
  refine spared_decode.trans (imp_congr_right fun _ => ?_)
  generalize DividendPaid.ofBytes ev.payload = x
  refine spared_account.trans (forall₂_congr fun acct s₁ => imp_congr_right fun _ => ?_)
  refine (spared_lift_then (numeric_checkedRaw _) fun net hnet => ?_).trans
    (and_congr_left' noPanic_checkedRaw)
  have hval : net.toInt = x.grossAmount.toInt - x.withheldTax.toInt := checkedRaw_eq_ok hnet
  refine spared_guard.trans (imp_congr ?_ (spared_guard.trans (imp_congr_right fun _ => ?_)))
  · rw [← hval, Int64.toInt_inj]
  refine (spared_lift_then (numeric_mulDiv _ _ _ _) fun expected hexpected => ?_).trans
    (and_congr_left' (noPanic_mulDiv (by decide)))
  obtain rfl : expected = x.expected := by
    rw [DividendPaid.expected, ← mulDiv_eq_quotient (by decide) hexpected, Int64.ofInt_toInt]
  -- an event with the wrong tax ends at the exception, before any sum on the account
  by_cases hdiff : x.Differs
  · refine iff_of_true ?_ fun hno => absurd hdiff hno
    rw [DividendPaid.Differs] at hdiff
    rw [if_pos hdiff]
    refine Proc.spares_bind.mpr ⟨?_, fun a e' ha => ?_⟩
    · exact (easy_pushException _ _).bind (fun _ => .fail _) _
    · obtain ⟨_, _, _, hfail⟩ := Proc.bind_eq_value.mp ha
      cases hfail
  · rw [forall_prop_of_true hdiff]
    rw [DividendPaid.Differs] at hdiff
    rw [if_neg hdiff]
    refine Iff.trans ⟨fun hs => (Proc.spares_bind.mp hs).2 ⟨⟩ _ rfl, fun hs =>
      Proc.spares_bind.mpr ⟨Proc.spares_pure _, ?_⟩⟩ (spared_consume.trans ?_)
    · rintro _ _ ⟨⟩
      exact hs
    · refine imp_congr_right fun _ => Proc.spares_update.trans (avoids_map.trans ?_)
      refine avoids_map.trans (noPanic_modRow.trans ?_)
      exact forall₂_congr fun a _ => noPanic_creditIncome

/-! ### Every event -/

/-- What the handler of the event computes from it and from the rows it finds fits in 64 bits, as
far as the checks before let it come. A purchase or sale asks for `10 ^ 12` times the price factor;
an allocation for the pending quantities and cash of both sides after the move; a settlement for the
buckets, the cost and the cash that its outcome moves; a corporate action for the scaled leftovers
with the fractions, the scaled price, the sums, the average price, the cash and the income less tax;
an income for the gross amount less tax, the basis times the rate, and the money it is credited to.
The other events ask for nothing. -/
def Event.Bounded (s : PartitionState) : Event → Prop
  | .tradeExecuted e => e.Bounded s
  | .tradeAllocated e => e.Bounded s
  | .tradeSettled e => e.Bounded s
  | .corporateActionApplied e => e.Bounded s
  | .dividendPaid e => e.Bounded s
  | .dayOpened _ | .batchNetted _ | .closingPriceSet _ | .custodyReconciled _ _ | .eodMarked _ =>
      True

/-- Setting a price computes nothing. -/
theorem spared_closingPrice (ev : EventView) (e : Engine) : Spared (applyClosingPrice ev) e := by
  unfold applyClosingPrice
  refine spared_decode.mpr fun _ => spared_guard.mpr fun _ => spared_instrument.mpr fun _ _ _ => ?_
  exact easy_change (fun _ => avoids_map.mpr (noPanic_modRow.mpr fun _ _ => avoids_ok _)) _

/-- Counting divergences computes nothing that is checked. -/
theorem spared_custodyReconciled (ev : EventView) (e : Engine) :
    Spared (applyCustodyReconciled ev) e := by
  unfold applyCustodyReconciled
  refine spared_decode.mpr fun _ => Easy.bind (fun _ => Proc.spares_ofExcept _) (fun _ => ?_) _
  exact easy_change fun _ => avoids_ok _

/-- The checksums of a day wrap around, and are not checked. -/
theorem spared_eodMarked (ev : EventView) (e : Engine) : Spared (applyEodMarked ev) e := by
  unfold applyEodMarked
  refine spared_decode.mpr fun _ => spared_read.mpr (spared_read.mpr (spared_guard.mpr fun _ => ?_))
  exact easy_change (fun _ => avoids_ok _) _

/-- **External input and panics.** With the buckets within the limits of a single event, an event
is applied without a panic exactly when what its handler computes fits. -/
theorem noPanic_iff_bounded {s : PartitionState} (h : s.Within) (o : Option Outbox)
    (ev : EventView) : NoPanic (apply ⟨s, o⟩ ev) ↔
      ∀ x, LogRecord.event ev = some x → x.Bounded s := by
  have happly : NoPanic (apply ⟨s, o⟩ ev) ↔ Spared (dispatch ev) ⟨s, o⟩ :=
    avoids_bind.trans (and_iff_left fun _ _ => avoids_ok _)
  rw [happly]
  unfold dispatch LogRecord.event
  cases ht : Tmpl.ofId ev.tmpl.toNat with
  | none => exact iff_of_true (Proc.spares_fail _) fun _ hx => (by cases hx)
  | some t =>
    dsimp only
    -- an event with sums to bound is decoded first; a short payload is refused
    have hread : ∀ {x : Event} {P : Prop}, (P ↔ x.Bounded s) → ((t.blockLength ≤ ev.payload.length →
        P) ↔ ∀ y, (if t.blockLength ≤ ev.payload.length then some x else none) = some y →
          y.Bounded s) := by
      intro x P hP
      split_ifs with hlen
      · simp [hlen, hP]
      · simp [hlen]
    -- the others have no sums
    have htrue : ∀ {o' : Option Event}, (∀ x, o' = some x → x.Bounded s) →
        Spared (handler ev t) ⟨s, o⟩ → (Spared (handler ev t) ⟨s, o⟩ ↔
          ∀ y, (if t.blockLength ≤ ev.payload.length then o' else none) = some y →
            y.Bounded s) := by
      refine fun hall hs => iff_of_true hs fun y hy => ?_
      split_ifs at hy
      exact hall y hy
    cases t with
    | dayOpened => exact htrue (by rintro _ ⟨⟩; trivial) (spared_dayOpened h ev)
    | tradeExecuted => exact (spared_tradeExecuted h ev).trans (hread Iff.rfl)
    | tradeAllocated => exact (spared_tradeAllocated ev).trans (hread Iff.rfl)
    | batchNetted => exact htrue (by rintro _ ⟨⟩; trivial) (spared_batchNetted ev _)
    | tradeSettled => exact (spared_tradeSettled h ev).trans (hread Iff.rfl)
    | corporateActionApplied => exact (spared_corporateAction h ev).trans (hread Iff.rfl)
    | dividendPaid => exact (spared_dividendPaid ev).trans (hread Iff.rfl)
    | closingPriceSet => exact htrue (by rintro _ ⟨⟩; trivial) (spared_closingPrice ev _)
    | custodyReconciled =>
      refine htrue (fun x hx => ?_) (spared_custodyReconciled ev _)
      simp only [Event.ofPayload] at hx
      split at hx
      · obtain rfl := Option.some.inj hx
        trivial
      · cases hx
    | eodMarked => exact htrue (by rintro _ ⟨⟩; trivial) (spared_eodMarked ev _)

/-- An income whose tax cannot be taken from it. -/
def overdrawn : DividendPaid := ⟨1, 1, 0, 0, Int64.minValue, 1, 0, 1, 0, 1⟩

/-- An instrument, a day and a purchase. -/
def firstPurchase : List Event :=
  [.closingPriceSet quoted, .dayOpened firstDay, .tradeExecuted boughtOne]

/-- After a purchase the next one goes through, and the income panics. -/
theorem noPanic_iff_bounded_overdrawn :
    ∃ s₀ arena₀ s steps, blank.init ⟨2 ^ 16, 0, false, false⟩ 1 ⟨3, 3, 3, 3, 2, 2, 2, 2, 60⟩ =
        .ok (true, s₀, arena₀) ∧ Session s₀ steps s ∧ s.trades.length = 1 ∧ s.custody.length = 1 ∧
      NoPanic (apply ⟨s, none⟩ ((Event.tradeExecuted boughtOther).record 4)) ∧
      ¬ NoPanic (apply ⟨s, none⟩ ((Event.dividendPaid overdrawn).record 4)) := by
  obtain ⟨s₀, arena₀, s, steps, hinit, h, hend⟩ := @exists_of_runPasses
    ⟨3, 3, 3, 3, 2, 2, 2, 2, 60⟩ firstPurchase
    (fun _ s => decide ((s.trades.length = 1 ∧ s.custody.length = 1) ∧ s.Within ∧
      (s.internAccount overdrawn.account).1 = some 0 ∧
      ∀ i ∈ ((s.internAccount boughtOther.account).2.internInstrument
        boughtOther.instrument).2.instruments, i.priceFactor = 1)) (by decide +kernel)
  obtain ⟨⟨htrades, hcustody⟩, hwithin, hacct, hfactor⟩ := of_decide_eq_true hend
  refine ⟨s₀, arena₀, s, steps, hinit, h, htrades, hcustody,
    (noPanic_iff_bounded hwithin none _).mpr fun x hx => ?_,
    fun hfree => absurd ((noPanic_iff_bounded hwithin none _).mp hfree _
      (LogRecord.event_record (x := .dividendPaid overdrawn) trivial 4) 0 _
      (Prod.ext hacct rfl)).1 (by decide)⟩
  rw [LogRecord.event_record (x := .tradeExecuted boughtOther) trivial] at hx
  obtain rfl := Option.some.inj hx
  intro _ _ acct s₁ hs₁ inst s₂ hs₂ i hi _ _ _ _ _ _ _
  rw [hs₁, hs₂] at hfactor
  rw [hfactor i (List.mem_of_getElem? hi)]
  decide

/-- The least value minus a tax, in an empty state. -/
theorem not_forall_noPanic :
    ¬ ∀ (s : PartitionState) (o : Option Outbox) (ev : EventView), s.Within →
      NoPanic (apply ⟨s, o⟩ ev) := by
  intro hall
  have hrun : ∃ s₀ arena₀, blank.init ⟨2 ^ 16, 0, false, false⟩ 1
      ⟨2, 2, 2, 2, 2, 2, 2, 2, 60⟩ = .ok (true, s₀, arena₀) ∧
      apply ⟨s₀, none⟩ ((Event.dividendPaid overdrawn).record 1) = .error .panicOverflow ∧
      s₀.custody = [] ∧ s₀.accounts = [] := ⟨_, _, rfl, rfl, rfl, rfl⟩
  obtain ⟨s₀, arena₀, hinit, hpanic, hcustody, haccounts⟩ := hrun
  refine hall s₀ none _ ⟨fun c hc => ?_, fun a ha => ?_⟩ _ hpanic trivial
  · rw [hcustody] at hc
    cases hc
  · rw [haccounts] at ha
    cases ha

end MotorRv
