import MotorRv.Core.Conservation

/-!
# What an event does to a row

An event names positions, accounts and trades by documents, ids and dates; the tables are addressed
by row number. Here each row of the state after an event is matched with its row before — an empty
one for a row that is new — and the change of it is either none, and then the event does not name
the row, or one of the changes of the event's handler.

`CustodyStep` is the change of one position under one event, with the row of the event's account and
trade as arguments where the change depends on them, and `Effect.custodyStep` finds it for every row
of the state after the event. Properties of single positions, such as the average price, the two
counters or the sign of the buckets, are then proved for the steps.

Rows are matched by keys and not by numbers where two states are compared, since who holds a
position is a matter of the documents; within one session the numbers stay as well, because no row
of these tables is ever removed (`Effect.accountKeys_prefix`, `Effect.custody_length`).
-/

namespace MotorRv

open Lib PartitionState Apply

/-! ### Names -/

namespace PartitionState

/-- The document of the account of a position. -/
def holderOf (s : PartitionState) (c : CustodyRow) : Option UInt64 := s.accountKeys[c.account]?

/-- The position belongs to the account with this document, in the instrument with this id. -/
def IsHeld (s : PartitionState) (c : CustodyRow) (doc : UInt64) (id : UInt32) : Prop :=
  s.holderOf c = some doc ∧ s.instrumentKeys[c.instrument]? = some (instrumentKey id)

instance (s : PartitionState) (c : CustodyRow) (doc : UInt64) (id : UInt32) :
    Decidable (s.IsHeld c doc id) := inferInstanceAs (Decidable (_ ∧ _))

/-- The trade with an id. -/
def tradeOf (s : PartitionState) (id : UInt64) : Option TradeRow :=
  s.trades.find? fun r => decide (r.tradeId = id)

/-- Row `p` before an event, for row `c'` after it: an empty row if it is new. -/
def rowBefore (s : PartitionState) (p : ℕ) (c' : CustodyRow) : CustodyRow :=
  s.custody.getD p (CustodyRow.cleared c'.account c'.instrument)

end PartitionState

/-- The positions that an event names; `s` is the state before it and `s'` the one after it. The
opening of a day is about all of them. -/
def Event.NamesPosition (s s' : PartitionState) (c : CustodyRow) : Event → Prop
  | .dayOpened _ => True
  | .tradeExecuted e => s'.IsHeld c e.account e.instrument
  | .tradeAllocated e => e.fromAccount ≠ e.toAccount ∧
      (s'.holderOf c = some e.fromAccount ∨ s'.holderOf c = some e.toAccount) ∧
      ∃ r, s.tradeOf e.tradeId = some r ∧ c.instrument = r.instrument
  | .tradeSettled e => s'.IsHeld c e.account e.instrument
  | .corporateActionApplied e => s'.IsHeld c e.account e.instrument
  | _ => False

/-- What an accepted event does to a position. -/
inductive CustodyStep (s s' : PartitionState) : Event → CustodyRow → CustodyRow → Prop
  | same {x c} (hno : ¬ x.NamesPosition s s' c) : CustodyStep s s' x c c
  | rotated {e c c'} (h : rotateCustody s.window (newWindow e) c = .ok c') :
      CustodyStep s s' (.dayOpened e) c c'
  | executed {e k c c'} (hheld : s'.IsHeld c e.account e.instrument)
      (hk : s.window.slotOf e.settlementDate = some k) (hqty : 0 < e.qty)
      (hshort : e.side = kSideBuy ∨ e.flags &&& 2 ≠ 0 ∨ ¬ c.available < e.qty)
      (h : executeCustody e k c = .ok c') : CustodyStep s s' (.tradeExecuted e) c c'
  | allocatedFrom {e r k c c'} (ht : s.tradeOf e.tradeId = some r)
      (hne : e.fromAccount ≠ e.toAccount) (howner : s'.holderOf c = some e.fromAccount)
      (hinst : c.instrument = r.instrument) (hk : s.window.slotOf e.settlementDate = some k)
      (hqty : e.qty = r.qty)
      (hpend : ¬ (if e.side = kSideBuy then c.pendingBuy k < e.qty else c.pendingSell k < e.qty))
      (h : allocateFrom e k c = .ok c') : CustodyStep s s' (.tradeAllocated e) c c'
  | allocatedTo {e r k c c'} (ht : s.tradeOf e.tradeId = some r)
      (hne : e.fromAccount ≠ e.toAccount) (howner : s'.holderOf c = some e.toAccount)
      (hinst : c.instrument = r.instrument) (hk : s.window.slotOf e.settlementDate = some k)
      (hqty : e.qty = r.qty)
      (hshort : e.side = kSideBuy ∨ c.shortAllowed = true ∨ ¬ c.available < e.qty)
      (h : allocateTo e k c = .ok c') : CustodyStep s s' (.tradeAllocated e) c c'
  | settled {e outcome c c' a a'} (hheld : s'.IsHeld c e.account e.instrument)
      (hout : SettleOutcome.ofCode e.outcome = some outcome)
      (h : Outcome s.window e c a outcome c' a') : CustodyStep s s' (.tradeSettled e) c c'
  | acted {e type base c c'} (hheld : s'.IsHeld c e.account e.instrument)
      (htype : ActionType.ofCode e.type = some type) (hvalid : validateAction e type = true)
      (hbase : c.custodyToday = .ok base) (h : ActsOn e base c type c') :
      CustodyStep s s' (.corporateActionApplied e) c c'

/-! ### Finding the row -/

namespace PartitionState

variable {s s₁ s' : PartitionState}

/-- The row of a trade is found through the index. -/
theorem tradeOf_eq (hs : s.Sound) {id : UInt64} {t : ℕ} {r : TradeRow}
    (ht : s.tradeIndex.find id = some t) (hr : s.trades[t]? = some r) : s.tradeOf id = some r := by
  have hid : r.tradeId = id := by
    have := (hs.trades.index.find id t).mp ht
    rw [tradeKeys, List.getElem?_map, hr, Option.map_some, Option.some.injEq] at this
    exact this
  have huniq : ∀ q ∈ s.trades, q.tradeId = id → q = r := by
    intro q hq hqid
    obtain ⟨n, hn⟩ := List.mem_iff_getElem?.mp hq
    have hkey : s.tradeKeys[n]? = some id := by
      rw [tradeKeys, List.getElem?_map, hn, Option.map_some, hqid]
    obtain rfl := Option.some.inj (((hs.trades.index.find id n).mpr hkey).symm.trans ht)
    exact Option.some.inj (hn.symm.trans hr)
  rcases hf : s.tradeOf id with _ | q
  · have := List.find?_eq_none.mp hf r (List.mem_of_getElem? hr)
    simp [hid] at this
  · rw [huniq q (List.mem_of_find?_eq_some hf) (by simpa using List.find?_some hf)]

/-- A key belongs to one row. -/
theorem Sound.account_inj (hs : s.Sound) {i j : ℕ} {doc : UInt64}
    (hi : s.accountKeys[i]? = some doc) (hj : s.accountKeys[j]? = some doc) : i = j :=
  Option.some.inj (((hs.accounts.index.find doc i).mpr hi).symm.trans
    ((hs.accounts.index.find doc j).mpr hj))

/-- An instrument has one row. -/
theorem Sound.instrument_inj (hs : s.Sound) {i j : ℕ} {k : UInt64}
    (hi : s.instrumentKeys[i]? = some k) (hj : s.instrumentKeys[j]? = some k) : i = j :=
  Option.some.inj (((hs.instruments.index.find k i).mpr hi).symm.trans
    ((hs.instruments.index.find k j).mpr hj))

/-- An account holds an instrument in one position. -/
theorem Sound.position_inj (hs : s.Sound) {p q : ℕ} {c d : CustodyRow}
    (hp : s.custody[p]? = some c) (hq : s.custody[q]? = some d) (ha : c.account = d.account)
    (hi : c.instrument = d.instrument) : p = q := by
  have hkp : s.positionKeys[p]? = some (positionKey c.account c.instrument) := by
    rw [positionKeys, List.getElem?_map, hp, Option.map_some]
  have hkq : s.positionKeys[q]? = some (positionKey c.account c.instrument) := by
    rw [positionKeys, List.getElem?_map, hq, Option.map_some, ha, hi]
  exact Option.some.inj (((hs.positions.index.find _ p).mpr hkp).symm.trans
    ((hs.positions.index.find _ q).mpr hkq))

/-- Who holds a position is a matter of the row numbers in it. -/
theorem Sound.isHeld_iff (hs : s.Sound) {c : CustodyRow} {doc : UInt64} {id : UInt32} {a i : ℕ}
    (ha : s.accountKeys[a]? = some doc) (hi : s.instrumentKeys[i]? = some (instrumentKey id)) :
    s.IsHeld c doc id ↔ c.account = a ∧ c.instrument = i := by
  constructor
  · rintro ⟨hca, hci⟩
    exact ⟨hs.account_inj hca ha, hs.instrument_inj hci hi⟩
  · rintro ⟨rfl, rfl⟩
    exact ⟨ha, hi⟩

/-- Who holds a position is a matter of the keys. -/
theorem isHeld_congr (ha : s'.accountKeys = s₁.accountKeys)
    (hi : s'.instrumentKeys = s₁.instrumentKeys) {c : CustodyRow} {doc : UInt64} {id : UInt32} :
    s'.IsHeld c doc id ↔ s₁.IsHeld c doc id := by
  unfold IsHeld holderOf
  rw [ha, hi]

/-- Interning does not change the row that a position had. -/
theorem rowBefore_eq (h : Interned s s₁) {p : ℕ} {c : CustodyRow}
    (hc : s₁.custody[p]? = some c) {c' : CustodyRow} (ha : c'.account = c.account)
    (hi : c'.instrument = c.instrument) : s.rowBefore p c' = c := by
  unfold rowBefore
  obtain hold | ⟨hge, a, i, rfl⟩ := h.custody_cases hc
  · rw [List.getD_eq_getElem?_getD, hold, Option.getD_some]
  · rw [List.getD_eq_getElem?_getD, List.getElem?_eq_none hge, Option.getD_none, ha, hi]
    rfl

/-- A changed account keeps its document. -/
theorem accountKeys_set {i : ℕ} {a a' : AccountRow} (ha : s₁.accounts[i]? = some a)
    (hdoc : a'.document = a.document) (h : s'.accounts = s₁.accounts.set i a') :
    s'.accountKeys = s₁.accountKeys := by
  rw [accountKeys, h]
  exact map_set_of_eq ha hdoc

end PartitionState

/-! ### Positions -/

section Custody

variable {s s₁ s' : PartitionState} {x : Event}

/-- Nothing happens to the positions, and none is named. -/
theorem CustodyStep.of_same (hI : Interned s s₁) (h : s'.custody = s₁.custody)
    (hno : ∀ c, ¬ x.NamesPosition s s' c) {p : ℕ} {c' : CustodyRow}
    (hc' : s'.custody[p]? = some c') : CustodyStep s s' x (s.rowBefore p c') c' := by
  rw [h] at hc'
  rw [rowBefore_eq hI hc' rfl rfl]
  exact .same (hno c')

/-- One position changes, the one that is named. -/
theorem CustodyStep.of_set (hI : Interned s s₁) {pos : ℕ} {c₀ c₁ : CustodyRow}
    (hc₀ : s₁.custody[pos]? = some c₀)
    (hown : c₁.account = c₀.account ∧ c₁.instrument = c₀.instrument)
    (h : s'.custody = s₁.custody.set pos c₁) (hstep : CustodyStep s s' x c₀ c₁)
    (hother : ∀ c, ¬ (c.account = c₀.account ∧ c.instrument = c₀.instrument) →
      ¬ x.NamesPosition s s' c) {p : ℕ} {c' : CustodyRow} (hc' : s'.custody[p]? = some c') :
    CustodyStep s s' x (s.rowBefore p c') c' := by
  rw [h] at hc'
  by_cases hp : p = pos
  · subst hp
    rw [List.getElem?_set_self (List.getElem?_eq_some_iff.mp hc₀).1] at hc'
    obtain rfl := Option.some.inj hc'
    rw [rowBefore_eq hI hc₀ hown.1 hown.2]
    exact hstep
  · rw [List.getElem?_set_ne (Ne.symm hp)] at hc'
    rw [rowBefore_eq hI hc' rfl rfl]
    exact .same (hother c' fun ⟨ha, hi⟩ => hp (hI.sound.position_inj hc' hc₀ ha hi))

/-- The same for an event that names the position by its account and instrument. -/
theorem CustodyStep.of_held (hI : Interned s s₁) {acct inst pos : ℕ} {doc : UInt64} {id : UInt32}
    (hacct : s₁.accountKeys[acct]? = some doc)
    (hinst : s₁.instrumentKeys[inst]? = some (instrumentKey id)) {c₀ c₁ : CustodyRow}
    (hc₀ : s₁.custody[pos]? = some c₀) (howner : c₀.account = acct ∧ c₀.instrument = inst)
    (hown : c₁.account = c₀.account ∧ c₁.instrument = c₀.instrument)
    (hka : s'.accountKeys = s₁.accountKeys) (hki : s'.instrumentKeys = s₁.instrumentKeys)
    (h : s'.custody = s₁.custody.set pos c₁)
    (hnames : ∀ c, x.NamesPosition s s' c → s'.IsHeld c doc id)
    (hstep : s'.IsHeld c₀ doc id → CustodyStep s s' x c₀ c₁) {p : ℕ} {c' : CustodyRow}
    (hc' : s'.custody[p]? = some c') : CustodyStep s s' x (s.rowBefore p c') c' := by
  have hheld : ∀ c, s'.IsHeld c doc id ↔ c.account = acct ∧ c.instrument = inst := fun c =>
    (isHeld_congr hka hki).trans (hI.sound.isHeld_iff hacct hinst)
  refine .of_set hI hc₀ hown h (hstep ((hheld c₀).mpr howner)) (fun c hne hname => hne ?_) hc'
  obtain ⟨ha, hi⟩ := (hheld c).mp (hnames c hname)
  exact ⟨ha.trans howner.1.symm, hi.trans howner.2.symm⟩

/-- No outcome of a settlement changes whose position it is. -/
theorem keepsOwner_outcome {w : SettlementWindow} {e : TradeSettled} {c c' : CustodyRow}
    {a a' : AccountRow} {outcome : SettleOutcome} (h : Outcome w e c a outcome c' a') :
    c'.account = c.account ∧ c'.instrument = c.instrument := by
  cases h with
  | settled _ _ hc _ => exact keepsOwner_settleCustody _ _ _ _ hc
  | deliveryFailure _ _ hc _ => exact keepsOwner_failCustody _ _ _ _ hc
  | boughtIn _ hc _ => exact keepsOwner_buyInCustody _ _ _ hc

/-- No action changes whose position it is. -/
theorem keepsOwner_actsOn {e : CorporateActionApplied} {base : Raw} {c c' : CustodyRow}
    {type : ActionType} (h : ActsOn e base c type c') :
    c'.account = c.account ∧ c'.instrument = c.instrument := by
  cases h with
  | split h => exact keepsOwner_splitCustody _ _ _ _ h
  | reverseSplit h => exact keepsOwner_splitCustody _ _ _ _ h
  | bonus _ _ _ h =>
    simp only [bonusCustody, bind, except_bind_eq_ok] at h
    obtain ⟨_, -, _, -, _, -, _, -, h⟩ := h
    obtain rfl := Except.ok.inj h
    exact ⟨rfl, rfl⟩
  | subscription _ h =>
    simp only [subscriptionCustody, bind, except_bind_eq_ok] at h
    obtain ⟨_, -, _, -, h⟩ := h
    obtain rfl := Except.ok.inj h
    exact ⟨rfl, rfl⟩
  | auction => exact ⟨rfl, rfl⟩

/-- No outcome of a settlement changes the document or the list of an account. -/
theorem keepsAccount_outcome {w : SettlementWindow} {e : TradeSettled} {c c' : CustodyRow}
    {a a' : AccountRow} {outcome : SettleOutcome} (h : Outcome w e c a outcome c' a') :
    a'.document = a.document ∧ a'.firstTrade = a.firstTrade := by
  cases h with
  | settled _ _ _ ha => exact keepsAccount_settleCash _ _ _ _ ha
  | deliveryFailure _ _ _ ha => exact keepsAccount_failCash _ _ _ _ ha
  | boughtIn _ _ ha => exact keepsAccount_buyInCash _ _ _ ha

theorem keepsAccount_actCash (e : CorporateActionApplied) (type : ActionType) :
    KeepsAccount fun a => actCash e a type := by
  intro a
  cases type with
  | subscription => exact .bind fun _ _ => .ok ⟨rfl, rfl⟩
  | leftoversAuction => exact .bind fun _ _ => .ok ⟨rfl, rfl⟩
  | _ => exact .ok ⟨rfl, rfl⟩

theorem keepsAccount_withholdTax (e : CorporateActionApplied) : KeepsAccount (withholdTax e) :=
  fun _ => .bind fun _ _ => .ok ⟨rfl, rfl⟩

end Custody

/-- **Positions, row by row.** -/
theorem Effect.custodyStep {s s' : PartitionState} {x : Event} (h : Effect s x s') (hs : s.Sound)
    {p : ℕ} {c' : CustodyRow} (hc' : s'.custody[p]? = some c') :
    CustodyStep s s' x (s.rowBefore p c') c' := by
  cases h with
  | dayOpened _ _ h =>
    have hrows := (opened_of_openDay h).custody
    have hlt' := (List.getElem?_eq_some_iff.mp hc').1
    have hlt : p < s.custody.length := hrows.length_eq ▸ hlt'
    have hrot := (List.forall₂_iff_get.mp hrows).2 p hlt hlt'
    simp only [List.get_eq_getElem] at hrot
    rw [List.getElem?_eq_getElem hlt', Option.some.injEq] at hc'
    rw [rowBefore, List.getD_eq_getElem _ _ hlt, ← hc']
    exact .rotated hrot
  | tradeExecuted hI _ _ hacct hinst hi _ hk hc howner hqty _ _ hshort _ hcust ha ha' =>
    exact .of_held hI hacct hinst hc howner (keepsOwner_executeCustody _ _ _ _ hcust)
      (by exact map_set_of_eq ha (keepsAccount_addPending _ _ _ _ ha').1) (by rfl) (by rfl)
      (by exact fun _ h => h)
      (fun hheld => .executed hheld hk hqty.1 hshort hcust) hc'
  | @allocatedInPlace e s₁ r k t acct hI _ _ _ hfrom hto =>
    have hsame : e.fromAccount = e.toAccount := Option.some.inj (hfrom.symm.trans hto)
    exact .of_same hI (by rfl) (by exact fun _ h => h.1 hsame) hc'
  | @allocated e s₁ s₂ r r' k c₁ c₁' c₂ c₂' a₁ a₁' a₂ a₂' t de para posDe posPara hI ht hr _ hfrom
      hto hne hk hqty hc₁ how₁ hc₂ how₂ hpend hshort hc₁' hc₂' ha₁ ha₁' ha₂ ha₂' hlink hr' =>
    have hown₁ := keepsOwner_allocateFrom _ _ _ _ hc₁'
    have hown₂ := keepsOwner_allocateTo _ _ _ _ hc₂'
    -- two rows hold two documents, so the event names two accounts
    have hdocs : e.fromAccount ≠ e.toAccount := fun heq =>
      hne (hI.sound.account_inj (hfrom.trans (congrArg some heq)) hto)
    obtain ⟨hacc, -, hrest⟩ := relinkTrade_rows hlink
    -- the lists of trades change links only, not the documents of the accounts
    have hkeys : s₂.accountKeys = s₁.accountKeys :=
      (map_of_unlinkedAccounts (·.document) (fun _ => rfl) hacc).trans
        (map_set_set_of_eq hne ha₁ (keepsAccount_subPending _ _ _ _ ha₁').1 ha₂
          (keepsAccount_addPending _ _ _ _ ha₂').1)
    have htrade := tradeOf_eq hs ht hr
    have hholder : ∀ {c : CustodyRow}, s₂.holderOf c = s₁.accountKeys[c.account]? := by
      intro c
      rw [holderOf, hkeys]
    have hcust : s₂.custody = (s₁.custody.set posDe c₁').set posPara c₂' := by rw [hrest]
    have hposne : posDe ≠ posPara := by
      rintro rfl
      obtain rfl := Option.some.inj (hc₁.symm.trans hc₂)
      exact hne (how₁.1.symm.trans how₂.1)
    replace hc' : s₂.custody[p]? = some c' := hc'
    rw [hcust] at hc'
    by_cases hp₂ : p = posPara
    · subst hp₂
      rw [List.getElem?_set_self (by
        rw [List.length_set]
        exact (List.getElem?_eq_some_iff.mp hc₂).1)] at hc'
      obtain rfl := Option.some.inj hc'
      rw [rowBefore_eq hI hc₂ hown₂.1 hown₂.2]
      refine .allocatedTo htrade hdocs ?_ how₂.2 hk hqty hshort hc₂'
      exact hholder.trans (how₂.1 ▸ hto)
    · rw [List.getElem?_set_ne (Ne.symm hp₂)] at hc'
      by_cases hp₁ : p = posDe
      · subst hp₁
        rw [List.getElem?_set_self (List.getElem?_eq_some_iff.mp hc₁).1] at hc'
        obtain rfl := Option.some.inj hc'
        rw [rowBefore_eq hI hc₁ hown₁.1 hown₁.2]
        refine .allocatedFrom htrade hdocs ?_ how₁.2 hk hqty hpend hc₁'
        exact hholder.trans (how₁.1 ▸ hfrom)
      · rw [List.getElem?_set_ne (Ne.symm hp₁)] at hc'
        rw [rowBefore_eq hI hc' rfl rfl]
        -- a named position would be the row of that account and instrument, one of the two
        refine .same fun ⟨_, hwho, r₀, hr₀, hinst⟩ => ?_
        obtain rfl := Option.some.inj (htrade.symm.trans hr₀)
        rcases hwho with hwho | hwho
        · have hacct := hI.sound.account_inj (hholder.symm.trans hwho) hfrom
          exact hp₁ (hI.sound.position_inj hc' hc₁ (hacct.trans how₁.1.symm)
            (hinst.trans how₁.2.symm))
        · have hacct := hI.sound.account_inj (hholder.symm.trans hwho) hto
          exact hp₂ (hI.sound.position_inj hc' hc₂ (hacct.trans how₂.1.symm)
            (hinst.trans how₂.2.symm))
  | batchNetted hI _ _ _ _ _ hlog => exact .of_same hI hlog.custody (by exact fun _ h => h) hc'
  | tradeSettled hI hfind hout hrows _ hlog =>
    obtain ⟨hacct, hinst, hc, howner, ha⟩ := hfind
    exact .of_held hI hacct hinst hc howner (keepsOwner_outcome hrows)
      (accountKeys_set ha (keepsAccount_outcome hrows).1 hlog.accounts)
      (by rw [instrumentKeys, hlog.instruments]; rfl) hlog.custody (by exact fun _ h => h)
      (fun hheld => .settled hheld hout hrows) hc'
  | corporateActionApplied hI hacct hinst hc howner ha htype hvalid _ _ hbase hact ha₁ ha' hlog =>
    have hdoc := (keepsAccount_withholdTax _ _ _ ha').1.trans (keepsAccount_actCash _ _ _ _ ha₁).1
    exact .of_held hI hacct hinst hc howner (keepsOwner_actsOn hact)
      (accountKeys_set ha hdoc hlog.accounts)
      (by rw [instrumentKeys, hlog.instruments]; rfl) hlog.custody (by exact fun _ h => h)
      (fun hheld => .acted hheld htype hvalid hbase hact) hc'
  | dividendPaid hI => exact .of_same hI (by rfl) (by exact fun _ h => h) hc'
  | closingPriceSet hI => exact .of_same hI (by rfl) (by exact fun _ h => h) hc'
  | custodyReconciled =>
    obtain ⟨xs, n, d, f, hrest⟩ := recordDivergences_rest _ _ s
    rw [hrest] at hc' ⊢
    exact .of_same (.refl hs) (by rfl) (by exact fun _ h => h) hc'
  | eodMarked => exact .of_same (.refl hs) (by rfl) (by exact fun _ h => h) hc'

/-- No event changes whose position it is. -/
theorem CustodyStep.owner {s s' : PartitionState} {x : Event} {c c' : CustodyRow}
    (h : CustodyStep s s' x c c') : c'.account = c.account ∧ c'.instrument = c.instrument := by
  cases h with
  | same => exact ⟨rfl, rfl⟩
  | rotated h => exact keepsOwner_rotateCustody _ _ _ _ h
  | executed _ _ _ _ h => exact keepsOwner_executeCustody _ _ _ _ h
  | allocatedFrom _ _ _ _ _ _ _ h => exact keepsOwner_allocateFrom _ _ _ _ h
  | allocatedTo _ _ _ _ _ _ _ h => exact keepsOwner_allocateTo _ _ _ _ h
  | settled _ _ h => exact keepsOwner_outcome h
  | acted _ _ _ _ h => exact keepsOwner_actsOn h

/-- A position that is not named stays. -/
theorem CustodyStep.eq_of_not_named {s s' : PartitionState} {x : Event} {c c' : CustodyRow}
    (h : CustodyStep s s' x c c') (hno : ¬ x.NamesPosition s s' c) : c' = c := by
  cases h with
  | same => rfl
  | rotated => exact absurd trivial hno
  | executed hheld => exact absurd hheld hno
  | allocatedFrom ht hne howner hinst => exact absurd ⟨hne, .inl howner, _, ht, hinst⟩ hno
  | allocatedTo ht hne howner hinst => exact absurd ⟨hne, .inr howner, _, ht, hinst⟩ hno
  | settled hheld => exact absurd hheld hno
  | acted hheld => exact absurd hheld hno

/-- No position disappears. -/
theorem Effect.custody_length {s s' : PartitionState} {x : Event} (h : Effect s x s') :
    s.custody.length ≤ s'.custody.length := by
  have hle : ∀ {s₁ : PartitionState}, Interned s s₁ → s.custody.length ≤ s₁.custody.length := by
    intro s₁ hI
    obtain ⟨new, hnew, -⟩ := hI.custody
    rw [hnew, List.length_append]
    omega
  cases h with
  | dayOpened _ _ h => exact (opened_of_openDay h).custody.length_eq.le
  | tradeExecuted hI => simpa using hle hI
  | allocatedInPlace hI => exact (hle hI :)
  | allocated hI _ _ _ _ _ _ _ _ _ _ _ _ _ _ _ _ _ _ _ _ hlink =>
    change _ ≤ List.length (PartitionState.custody _)
    rw [(relinkTrade_rows hlink).2.2]
    simpa using hle hI
  | batchNetted hI _ _ _ _ _ hlog => simpa [hlog.custody] using hle hI
  | tradeSettled hI _ _ _ _ hlog => simpa [hlog.custody] using hle hI
  | corporateActionApplied hI _ _ _ _ _ _ _ _ _ _ _ _ _ hlog =>
    simpa [hlog.custody] using hle hI
  | dividendPaid hI => exact (hle hI :)
  | closingPriceSet hI => exact (hle hI :)
  | custodyReconciled =>
    obtain ⟨xs, n, d, f, hrest⟩ := recordDivergences_rest _ _ s
    rw [hrest]
  | eodMarked => exact le_rfl

/-- Interning adds accounts behind the others. -/
theorem Interned.accountKeys_prefix {s s₁ : PartitionState} (h : Interned s s₁) :
    s.accountKeys <+: s₁.accountKeys := by
  obtain ⟨new, hnew, -⟩ := h.accounts
  rw [accountKeys, accountKeys, hnew, List.map_append]
  exact List.prefix_append _ _

/-- A rejected event adds accounts behind the others. -/
theorem Kept.accountKeys_prefix {s s' : PartitionState} (h : Kept s s') :
    s.accountKeys <+: s'.accountKeys := by
  obtain ⟨new, hnew, -⟩ := h.accounts
  rw [accountKeys, accountKeys, hnew, List.map_append]
  exact List.prefix_append _ _

/-- No account changes its row. -/
theorem Effect.accountKeys_prefix {s s' : PartitionState} {x : Event} (h : Effect s x s') :
    s.accountKeys <+: s'.accountKeys := by
  have hset : ∀ {s₁ s' : PartitionState} {i : ℕ} {a a' : AccountRow}, Interned s s₁ →
      s₁.accounts[i]? = some a → a'.document = a.document →
      s'.accounts = s₁.accounts.set i a' → s.accountKeys <+: s'.accountKeys :=
    fun hI ha hdoc heq => accountKeys_set ha hdoc heq ▸ hI.accountKeys_prefix
  cases h with
  | dayOpened _ _ h =>
    have hrows := (opened_of_openDay h).accounts
    suffices heq : s'.accountKeys = s.accountKeys from heq ▸ List.prefix_rfl
    rw [← List.forall₂_eq_eq_eq, accountKeys, accountKeys, List.forall₂_map_left_iff,
      List.forall₂_map_right_iff]
    refine List.Forall₂.flip (hrows.imp fun a a' hopen => ?_)
    obtain ⟨a₁, ha₁, hun⟩ := hopen
    exact (congrArg AccountRow.document hun).trans (keepsAccount_rotateCash _ _ _ _ ha₁).1
  | tradeExecuted hI _ _ _ _ _ _ _ _ _ _ _ _ _ _ _ ha ha' =>
    refine hset hI ha ?_ rfl
    exact (keepsAccount_addPending _ _ _ _ ha').1
  | allocatedInPlace hI => exact hI.accountKeys_prefix
  | @allocated e s₁ s₂ r r' k c₁ c₁' c₂ c₂' a₁ a₁' a₂ a₂' t de para _ _ hI _ _ _ _ _ hne _ _ _ _ _
      _ _ _ _ _ ha₁ ha₁' ha₂ ha₂' hlink =>
    obtain ⟨hacc, -, -⟩ := relinkTrade_rows hlink
    have hkeys : s₂.accountKeys = s₁.accountKeys :=
      (map_of_unlinkedAccounts (·.document) (fun _ => rfl) hacc).trans
        (map_set_set_of_eq hne ha₁ (keepsAccount_subPending _ _ _ _ ha₁').1 ha₂
          (keepsAccount_addPending _ _ _ _ ha₂').1)
    exact (hkeys ▸ hI.accountKeys_prefix :)
  | batchNetted hI _ _ _ _ _ hlog =>
    obtain ⟨xs, n, d, rfl⟩ := hlog
    exact hI.accountKeys_prefix
  | tradeSettled hI hfind _ hrows _ hlog =>
    exact hset hI hfind.cash (keepsAccount_outcome hrows).1 hlog.accounts
  | corporateActionApplied hI _ _ _ _ ha _ _ _ _ _ _ ha₁ ha' hlog =>
    exact hset hI ha ((keepsAccount_withholdTax _ _ _ ha').1.trans
      (keepsAccount_actCash _ _ _ _ ha₁).1) hlog.accounts
  | dividendPaid hI _ _ _ _ ha ha' =>
    exact hset hI ha (keepsAccount_creditIncome _ _ _ ha').1 rfl
  | closingPriceSet hI => exact hI.accountKeys_prefix
  | custodyReconciled =>
    obtain ⟨xs, n, d, f, hrest⟩ := recordDivergences_rest _ _ s
    rw [hrest]
    exact List.prefix_rfl
  | eodMarked => exact List.prefix_rfl

/-- Interning adds instruments behind the others. -/
theorem Interned.instrumentKeys_prefix {s s₁ : PartitionState} (h : Interned s s₁) :
    s.instrumentKeys <+: s₁.instrumentKeys := by
  obtain ⟨new, hnew, -⟩ := h.instruments
  rw [instrumentKeys, instrumentKeys, hnew, List.map_append]
  exact List.prefix_append _ _

/-- No instrument changes its row. -/
theorem Effect.instrumentKeys_prefix {s s' : PartitionState} {x : Event} (h : Effect s x s') :
    s.instrumentKeys <+: s'.instrumentKeys := by
  have hsame : ∀ {s₁ : PartitionState}, Interned s s₁ → s'.instruments = s₁.instruments →
      s.instrumentKeys <+: s'.instrumentKeys := by
    intro s₁ hI heq
    rw [instrumentKeys, instrumentKeys, heq]
    exact hI.instrumentKeys_prefix
  cases h with
  | dayOpened _ _ h =>
    rw [instrumentKeys, instrumentKeys, (opened_of_openDay h).instruments]
  | tradeExecuted hI | allocatedInPlace hI | dividendPaid hI => exact hsame hI rfl
  | allocated hI _ _ _ _ _ _ _ _ _ _ _ _ _ _ _ _ _ _ _ _ hlink =>
    refine hsame hI ?_
    rw [(relinkTrade_rows hlink).2.2]
  | batchNetted hI _ _ _ _ _ hlog | tradeSettled hI _ _ _ _ hlog => exact hsame hI hlog.instruments
  | corporateActionApplied hI _ _ _ _ _ _ _ _ _ _ _ _ _ hlog => exact hsame hI hlog.instruments
  | @closingPriceSet e s₁ i inst hI _ _ hi =>
    have hkeys : ((s₁.instruments.set inst (describe e i)).map fun i =>
      instrumentKey i.externalId) =
        s₁.instruments.map fun i => instrumentKey i.externalId := map_set_of_eq hi rfl
    rw [instrumentKeys, instrumentKeys, hkeys]
    exact hI.instrumentKeys_prefix
  | custodyReconciled =>
    obtain ⟨xs, n, d, f, hrest⟩ := recordDivergences_rest _ _ s
    rw [hrest]
    exact List.prefix_rfl
  | eodMarked => exact List.prefix_rfl

/-- No event changes a capacity. -/
theorem Effect.cap {s s' : PartitionState} {x : Event} (h : Effect s x s') : s'.cap = s.cap := by
  cases h with
  | dayOpened _ _ h => exact (opened_of_openDay h).cap
  | tradeExecuted hI | allocatedInPlace hI | dividendPaid hI | closingPriceSet hI => exact hI.cap
  | allocated hI _ _ _ _ _ _ _ _ _ _ _ _ _ _ _ _ _ _ _ _ hlink =>
    obtain ⟨-, -, hrest⟩ := relinkTrade_rows hlink
    rw [hrest]
    exact hI.cap
  | batchNetted hI _ _ _ _ _ hlog | tradeSettled hI _ _ _ _ hlog =>
    obtain ⟨xs, n, d, rfl⟩ := hlog
    exact hI.cap
  | corporateActionApplied hI _ _ _ _ _ _ _ _ _ _ _ _ _ hlog =>
    obtain ⟨xs, n, d, rfl⟩ := hlog
    exact hI.cap
  | custodyReconciled =>
    obtain ⟨xs, n, d, f, hrest⟩ := recordDivergences_rest _ _ s
    rw [hrest]
  | eodMarked => rfl

/-- Rows after an event that is not accepted. -/
theorem Kept.rowBefore_eq {s s' : PartitionState} (h : Kept s s') {p : ℕ} {c' : CustodyRow}
    (hc' : s'.custody[p]? = some c') : s.rowBefore p c' = c' := by
  obtain ⟨new, hnew, hall⟩ := h.custody
  rw [hnew] at hc'
  rcases Nat.lt_or_ge p s.custody.length with hlt | hge
  · rw [List.getElem?_append_left hlt] at hc'
    rw [rowBefore, List.getD_eq_getElem?_getD, hc', Option.getD_some]
  · rw [List.getElem?_append_right hge] at hc'
    obtain ⟨a, i, rfl⟩ := hall _ (List.mem_of_getElem? hc')
    rw [rowBefore, List.getD_eq_getElem?_getD, List.getElem?_eq_none hge, Option.getD_none]
    rfl

end MotorRv
