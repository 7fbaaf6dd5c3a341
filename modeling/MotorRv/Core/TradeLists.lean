import MotorRv.Core.Executions
import MotorRv.Lib.Chain

/-!
# The lists of trades

Each account heads a list of the trades it owns, threaded through the table of trades. Executions
put a trade in front, compaction builds every list anew, and an allocation moves a trade from the
list of the account that the event names: when that is not the owner, the trade stays in its old
list as well. `Linked` is what holds of the lists as long as no allocation is misplaced.

Heads, owners and links are read as partial functions on row numbers, so that `Linked` is an
instance of the library's `Lists` and its operations apply: a new trade in front of its account's
list, a trade taken out behind another one or at the head, and put in front of another list. The
handlers write the same cells, and these lemmas match the two.

An allocation is `Misplaces` if the event moves a trade that passes the checks but whose owner is
not the account it names; the condition reads the state before the event. Without such an event the
lists are kept by every effect (`Effect.linked`) and over every session (`Session.listed`), where
`Listed` adds that every trade has a positive quantity.
-/

namespace MotorRv

open Lib PartitionState Apply

/-! ### Heads, owners and links -/

def headIn (as : List AccountRow) (i : ℕ) : Option (Option ℕ) := (as.map (·.firstTrade))[i]?
def ownerIn (rows : List TradeRow) (i : ℕ) : Option ℕ := (rows.map (·.account))[i]?
def linkIn (rows : List TradeRow) (i : ℕ) : Option (Option ℕ) := (rows.map (·.next))[i]?

/-- A column after one of its rows was replaced. -/
theorem column_set {α β : Type} (f : α → β) {rows : List α} {i : ℕ} {r : α}
    (hr : rows[i]? = some r) (r' : α) :
    (fun j => ((rows.set i r').map f)[j]?) =
      Function.update (fun j => (rows.map f)[j]?) i (some (f r')) := by
  funext j
  rw [List.map_set]
  by_cases hj : j = i
  · subst hj
    rw [Function.update_self, List.getElem?_set_self]
    rw [List.length_map]
    exact (List.getElem?_eq_some_iff.mp hr).1
  · rw [Function.update_of_ne hj, List.getElem?_set_ne (Ne.symm hj)]

/-- A column after a row was appended. -/
theorem column_append {α β : Type} (f : α → β) (rows : List α) (r : α) :
    (fun j => ((rows ++ [r]).map f)[j]?) =
      Function.update (fun j => (rows.map f)[j]?) rows.length (some (f r)) := by
  funext j
  rw [List.map_append, List.getElem?_append, List.length_map]
  by_cases hj : j = rows.length
  · subst hj
    rw [Function.update_self, if_neg (Nat.lt_irrefl _), Nat.sub_self]
    rfl
  · rw [Function.update_of_ne hj]
    split_ifs with hlt
    · rfl
    · rw [List.getElem?_eq_none (by simp; omega), List.getElem?_eq_none (by simp; omega)]

theorem ownerIn_eq {rows : List TradeRow} {i : ℕ} {r : TradeRow} (hr : rows[i]? = some r) :
    ownerIn rows i = some r.account := by
  rw [ownerIn, List.getElem?_map, hr, Option.map_some]

theorem linkIn_eq {rows : List TradeRow} {i : ℕ} {r : TradeRow} (hr : rows[i]? = some r) :
    linkIn rows i = some r.next := by
  rw [linkIn, List.getElem?_map, hr, Option.map_some]

theorem headIn_eq {as : List AccountRow} {i : ℕ} {a : AccountRow} (ha : as[i]? = some a) :
    headIn as i = some a.firstTrade := by
  rw [headIn, List.getElem?_map, ha, Option.map_some]

theorem lt_of_linkIn {rows : List TradeRow} {i : ℕ} {l : Option ℕ} (h : linkIn rows i = some l) :
    i < rows.length := by
  have := (List.getElem?_eq_some_iff.mp h).1
  rwa [List.length_map] at this

/-- The list of every account visits exactly its trades, and every trade has its account. -/
structure PartitionState.Linked (s : PartitionState) : Prop where
  lists : Lists (headIn s.accounts) (ownerIn s.trades) (linkIn s.trades) fun _ => False
  owners : ∀ r ∈ s.trades, r.account < s.accounts.length

variable {s s₁ s' : PartitionState}

namespace PartitionState.Linked

/-- The heads, owners and links are all that counts. -/
theorem congr (h : s.Linked)
    (hacc : s'.accounts.map (·.firstTrade) = s.accounts.map (·.firstTrade))
    (hown : s'.trades.map (·.account) = s.trades.map (·.account))
    (hnext : s'.trades.map (·.next) = s.trades.map (·.next)) : s'.Linked where
  lists := by
    have hlists := h.lists
    unfold headIn ownerIn linkIn at hlists ⊢
    rwa [hacc, hown, hnext]
  owners r hr := by
    have hlen : s'.accounts.length = s.accounts.length := by simpa using congrArg List.length hacc
    have hmem : r.account ∈ s.trades.map (·.account) := hown ▸ List.mem_map_of_mem hr
    obtain ⟨q, hq, heq⟩ := List.mem_map.mp hmem
    rw [hlen, ← heq]
    exact h.owners q hq

/-- A change of the states of trades, and of accounts apart from their lists. -/
theorem ofRows (h : s.Linked)
    (hacc : s'.accounts.map (·.firstTrade) = s.accounts.map (·.firstTrade))
    (hrows : s'.trades.map (fun r => { r with state := 0 }) =
      s.trades.map fun r => { r with state := 0 }) : s'.Linked := by
  have hcol : ∀ {γ : Type} (f : TradeRow → γ), (∀ r, f { r with state := 0 } = f r) →
      s'.trades.map f = s.trades.map f := by
    intro γ f hf
    have := congrArg (List.map f) hrows
    rw [List.map_map, List.map_map] at this
    simpa only [Function.comp_def, hf] using this
  exact h.congr hacc (hcol _ fun _ => rfl) (hcol _ fun _ => rfl)

/-- New accounts have no trades. -/
theorem append (h : s.Linked) {new : List AccountRow} (hacc : s'.accounts = s.accounts ++ new)
    (hnew : ∀ a ∈ new, ∃ doc, a = AccountRow.cleared doc) (htrades : s'.trades = s.trades) :
    s'.Linked where
  lists := by
    refine h.lists.congr (fun a l hl => ?_) (fun i => by rw [htrades]) fun i => by rw [htrades]
    rw [headIn, hacc, List.map_append, List.getElem?_append, List.length_map] at hl
    split_ifs at hl with hlt
    · exact .inl hl
    · -- an account past the old ones owns nothing, since every trade has its account
      obtain ⟨x, hx, rfl⟩ := List.mem_map.mp (List.mem_of_getElem? hl)
      obtain ⟨doc, rfl⟩ := hnew x hx
      refine .inr ⟨rfl, fun i hi => hlt ?_⟩
      rw [ownerIn, List.getElem?_map, Option.map_eq_some_iff] at hi
      obtain ⟨r, hr, rfl⟩ := hi
      exact h.owners r (List.mem_of_getElem? hr)
  owners r hr := by
    rw [hacc, List.length_append]
    have := h.owners r (htrades ▸ hr)
    omega

/-- A rejected event adds accounts without trades. -/
theorem kept (h : s.Linked) (hk : Kept s s') : s'.Linked := by
  obtain ⟨new, hacc, hnew⟩ := hk.accounts
  exact h.append hacc hnew hk.trades

/-- The list of an account: its rows in the order of the links. -/
theorem chain (h : s.Linked) {acct : ℕ} {a : AccountRow} (ha : s.accounts[acct]? = some a) :
    ∃ is, Chain (linkIn s.trades) a.firstTrade is ∧ is.length ≤ s.trades.length ∧
      ∀ i, i ∈ is ↔ ownerIn s.trades i = some acct := by
  obtain ⟨is, hchain, hmem⟩ := h.lists acct a.firstTrade (headIn_eq ha)
  refine ⟨is, hchain, hchain.length_le fun i hi => ?_, fun i => by simpa using hmem i⟩
  obtain ⟨js, ks, rfl⟩ := List.append_of_mem hi
  obtain ⟨l, hl, -⟩ := hchain.split
  exact lt_of_linkIn hl

/-- The new trade of an account in front of its list. -/
theorem execute (h : s.Linked) {acct : ℕ} {a a' : AccountRow} {r : TradeRow}
    (ha : s.accounts[acct]? = some a) (hfirst : a'.firstTrade = some s.trades.length)
    (hown : r.account = acct) (hnext : r.next = a.firstTrade)
    (hacc : s'.accounts = s.accounts.set acct a') (htrades : s'.trades = s.trades ++ [r]) :
    s'.Linked where
  lists := by
    have hnone : ownerIn s.trades s.trades.length = none := by
      rw [ownerIn, List.getElem?_eq_none (by simp)]
    have := (h.lists.newCell hnone).attach (headIn_eq ha)
    unfold headIn ownerIn linkIn at this ⊢
    rw [hacc, htrades, column_set (·.firstTrade) ha, column_append, column_append, hfirst, hown,
      hnext]
    exact this
  owners q hq := by
    rw [hacc, List.length_set]
    rw [htrades] at hq
    obtain hq | hq := List.mem_append.mp hq
    · exact h.owners q hq
    · rw [List.mem_singleton.mp hq, hown]
      exact (List.getElem?_eq_some_iff.mp ha).1

end PartitionState.Linked

/-! ### Compaction -/

/-- A column whose first row has number `i`. -/
def shifted {α : Type} (i : ℕ) (xs : List α) (j : ℕ) : Option α :=
  if j < i then none else xs[j - i]?

/-- A row in front is at the first place. -/
theorem shifted_cons {α : Type} (i : ℕ) (x : α) (xs : List α) :
    shifted i (x :: xs) = Function.update (shifted (i + 1) xs) i (some x) := by
  funext j
  rcases Nat.lt_trichotomy j i with hlt | rfl | hgt
  · rw [Function.update_of_ne (by omega), shifted, shifted, if_pos hlt, if_pos (by omega)]
  · rw [Function.update_self, shifted, if_neg (Nat.lt_irrefl j), Nat.sub_self]
    rfl
  · rw [Function.update_of_ne (by omega), shifted, shifted, if_neg (by omega), if_neg (by omega),
      show j - i = (j - (i + 1)) + 1 by omega, List.getElem?_cons_succ]

/-- Linking again gives every account the list of its trades, whatever the links were. -/
theorem lists_relink : ∀ {ts ts' : List TradeRow} {i : ℕ} {as as' : List AccountRow},
    relink i ts as = .ok (ts', as') → (∀ a ∈ as, a.firstTrade = none) →
      Lists (headIn as') (shifted i (ts'.map (·.account))) (shifted i (ts'.map (·.next)))
        fun _ => False := by
  intro ts
  induction ts with
  | nil =>
    intro ts' i as as' h hnone a l hl
    obtain ⟨rfl, rfl⟩ := Prod.mk.inj (Except.ok.inj h)
    rw [headIn, List.getElem?_map, Option.map_eq_some_iff] at hl
    obtain ⟨r, hr, rfl⟩ := hl
    rw [hnone r (List.mem_of_getElem? hr)]
    exact ⟨[], .nil, fun j => by simp [shifted]⟩
  | cons t ts ih =>
    intro ts' i as as' h hnone
    simp only [relink, bind, except_bind_eq_ok] at h
    obtain ⟨⟨ts₁, as₁⟩, hrec, h⟩ := h
    dsimp only at h
    split at h
    · cases h
    · rename_i a ha
      obtain ⟨rfl, rfl⟩ := Prod.mk.inj (Except.ok.inj h)
      have hout : shifted (i + 1) (ts₁.map (·.account)) i = none := if_pos (Nat.lt_succ_self i)
      have hlists := ((ih hrec hnone).newCell hout).attach (headIn_eq ha)
      rw [List.map_cons, List.map_cons, shifted_cons, shifted_cons]
      unfold headIn at hlists ⊢
      rw [column_set (·.firstTrade) ha]
      exact hlists

/-- After compaction the lists are linked whatever they were before, since they are made anew. -/
theorem PartitionState.Linked.compact (h : s.Linked) (hc : s.closeAndCompactTrades = .ok s') :
    s'.Linked := by
  obtain ⟨hacc, htr, -⟩ := closeAndCompact_rows hc
  unfold closeAndCompactTrades at hc
  split_ifs at hc with hany
  · simp only [bind, except_bind_eq_ok] at hc
    obtain ⟨⟨trades, accounts⟩, hrel, hc⟩ := hc
    obtain rfl := Except.ok.inj hc
    have hzero : ∀ {α : Type} (xs : List α), shifted 0 xs = fun j => xs[j]? := by
      intro α xs
      funext j
      rw [shifted, if_neg (Nat.not_lt_zero j), Nat.sub_zero]
    have hlists := lists_relink hrel fun a ha => by
      obtain ⟨b, -, rfl⟩ := List.mem_map.mp ha
      rfl
    rw [hzero, hzero] at hlists
    refine ⟨hlists, fun r hr => ?_⟩
    have hlen : accounts.length = s.accounts.length := by simpa using congrArg List.length hacc
    have hown : trades.map (·.account) =
        (s.trades.filter fun t => !closes s.window t).map (·.account) :=
      map_of_unlinkedTrades _ (fun _ => rfl) htr
    obtain ⟨q, hq, heq⟩ := List.mem_map.mp (hown ▸ List.mem_map_of_mem hr : r.account ∈ _)
    calc r.account = q.account := heq.symm
      _ < s.accounts.length := h.owners q (List.mem_filter.mp hq).1
      _ = accounts.length := hlen.symm
  · obtain rfl := Except.ok.inj hc
    exact h

/-- Opening a day leaves the lists linked: the rotation does not touch them. -/
theorem PartitionState.Linked.openDay (h : s.Linked) {e : DayOpened}
    (hopen : openDay e s = .ok s') : s'.Linked := by
  simp only [Apply.openDay, bind, except_bind_eq_ok] at hopen
  obtain ⟨custody, -, accounts, ha, hc⟩ := hopen
  refine PartitionState.Linked.compact ?_ hc
  refine h.congr ?_ rfl rfl
  exact map_eq_of_forall₂ (·.firstTrade) (fun a a' hrot => (keepsAccount_rotateCash _ _ _ _ hrot).2)
    (mapM_forall₂ ha)

/-! ### Allocation -/

/-- Going along a chain finds the row before any of its rows but the first. -/
theorem predecessor_chain {rows : List TradeRow} {t : ℕ} : ∀ {fuel cur : ℕ} {is : List ℕ},
    Chain (linkIn rows) (some cur) is → is.length ≤ fuel →
      (∃ xs p ys, predecessor rows t fuel cur = .ok (some p) ∧ is = xs ++ p :: t :: ys) ∨
        (predecessor rows t fuel cur = .ok none ∧ t ∉ is.tail) := by
  intro fuel
  induction fuel with
  | zero =>
    intro cur is hc hle
    cases hc
    simp at hle
  | succ fuel ih =>
    intro cur is hc hle
    cases hc with
    | @cons _ l is hi hrest =>
      obtain ⟨r, hr, rfl⟩ : ∃ r, rows[cur]? = some r ∧ r.next = l := by
        rw [linkIn, List.getElem?_map, Option.map_eq_some_iff] at hi
        exact hi
      have hrow : rowAt rows cur = .ok r := rowAt_eq_ok.mpr hr
      -- at the end of the list the trade was not met
      rcases hnext : r.next with _ | n
      · refine .inr ⟨?_, ?_⟩
        · simp only [predecessor, hrow, bind, Except.bind, hnext]
        · rw [hnext] at hrest
          cases hrest
          simp
      · rw [hnext] at hrest
        have hstep : predecessor rows t (fuel + 1) cur =
            if n = t then .ok (some cur) else predecessor rows t fuel n := by
          simp only [predecessor, hrow, bind, Except.bind, hnext]
        rw [hstep]
        by_cases hnt : n = t
        · subst hnt
          rw [if_pos rfl]
          cases hrest with
          | @cons _ l' js _ _ => exact .inl ⟨[], cur, js, rfl, rfl⟩
        · rw [if_neg hnt]
          rw [List.length_cons] at hle
          -- not the next one either: the walk goes on from it
          rcases ih hrest (by omega) with ⟨xs, p, ys, hp, rfl⟩ | ⟨hp, hnot⟩
          · exact .inl ⟨cur :: xs, p, ys, hp, rfl⟩
          · refine .inr ⟨hp, ?_⟩
            cases hrest with
            | @cons _ l' js _ _ =>
              rw [List.tail_cons, List.mem_cons]
              exact fun hor => hor.elim (fun heq => hnt heq.symm) hnot

/-- Taking a trade out of the list of its owner. -/
theorem PartitionState.Linked.unlink (h : s.Linked) {acct t : ℕ} {b : Bool}
    (hown : ownerIn s.trades t = some acct) (hun : unlinkTrade s acct t = .ok (b, s')) :
    Lists (headIn s'.accounts) (ownerIn s'.trades) (linkIn s'.trades) (· = t) ∧
      s'.accounts.length = s.accounts.length ∧
      s'.trades.map (·.account) = s.trades.map (·.account) := by
  simp only [unlinkTrade, bind, except_bind_eq_ok] at hun
  obtain ⟨a, ha, hun⟩ := hun
  replace ha := rowAt_eq_ok.mp ha
  obtain ⟨is, hchain, hle, hmem⟩ := h.chain ha
  -- the trade is in the list of its owner, so the walk finds it
  have ht : t ∈ is := (hmem t).mpr hown
  split at hun
  · rename_i hfirst
    rw [hfirst] at hchain
    cases hchain
    simp at ht
  · rename_i first hfirst
    rw [hfirst] at hchain
    split_ifs at hun with heq
    -- the head of the list: the account moves to the next trade
    · subst heq
      simp only [except_bind_eq_ok] at hun
      obtain ⟨r, hr, hun⟩ := hun
      obtain ⟨-, rfl⟩ := Prod.mk.inj (Except.ok.inj hun)
      refine ⟨?_, List.length_set, rfl⟩
      have hlists := h.lists.detachFirst (hfirst ▸ headIn_eq ha) hown
        (linkIn_eq (rowAt_eq_ok.mp hr))
      unfold headIn at hlists ⊢
      rw [column_set (·.firstTrade) ha]
      exact hlists
    · simp only [except_bind_eq_ok] at hun
      obtain ⟨o, hpred, hun⟩ := hun
      rcases predecessor_chain hchain hle (t := t) with ⟨xs, p, ys, hp, rfl⟩ | ⟨-, hnot⟩
      · obtain rfl := Except.ok.inj (hp.symm.trans hpred)
        simp only [except_bind_eq_ok] at hun
        obtain ⟨r, hr, rows, hrows, hun⟩ := hun
        obtain ⟨-, rfl⟩ := Prod.mk.inj (Except.ok.inj hun)
        -- behind another trade: that one skips it
        obtain ⟨q, q', hq, hq', rfl⟩ := modRow_eq_ok.mp hrows
        obtain rfl := Except.ok.inj hq'
        have hlists := h.lists.detachNext (hfirst ▸ headIn_eq ha) hchain hown
          (linkIn_eq (rowAt_eq_ok.mp hr))
        have haccount : (s.trades.set p { q with next := r.next }).map (·.account) =
            s.trades.map (·.account) := map_set_of_eq hq rfl
        refine ⟨?_, rfl, haccount⟩
        unfold ownerIn linkIn at hlists ⊢
        rw [column_set (·.next) hq, haccount]
        exact hlists
      · cases hchain with
        | cons _ _ =>
          rw [List.tail_cons] at hnot
          exact absurd ((List.mem_cons.mp ht).resolve_left (Ne.symm heq)) hnot

/-- **Moving a trade** from the list of its owner to that of another account. -/
theorem PartitionState.Linked.relinkTrade (h : s.Linked) {de para t : ℕ}
    (hown : ownerIn s.trades t = some de) (hlink : relinkTrade de para t s = .ok s') :
    s'.Linked := by
  simp only [Apply.relinkTrade, bind, except_bind_eq_ok] at hlink
  obtain ⟨⟨b, s₁⟩, hun, a, ha, rows, hrows, hlink⟩ := hlink
  obtain ⟨hlists, hlen, haccount⟩ := h.unlink hown hun
  dsimp only at ha hrows hlink
  replace ha := rowAt_eq_ok.mp ha
  obtain ⟨q, q', hq, hq', rfl⟩ := modRow_eq_ok.mp hrows
  obtain rfl := Except.ok.inj hq'
  obtain rfl := Except.ok.inj hlink
  have hattach := hlists.attach (headIn_eq ha)
  have hpara := (List.getElem?_eq_some_iff.mp ha).1
  refine ⟨?_, fun r hr => ?_⟩
  · unfold headIn ownerIn linkIn at hattach ⊢
    rw [column_set (·.firstTrade) ha, column_set (·.account) hq, column_set (·.next) hq]
    exact hattach
  · rw [List.length_set]
    rcases List.mem_or_eq_of_mem_set hr with hr | rfl
    · obtain ⟨r₀, hr₀, heq⟩ := List.mem_map.mp (haccount ▸ List.mem_map_of_mem hr : r.account ∈ _)
      rw [hlen, ← heq]
      exact h.owners r₀ hr₀
    · exact hpara

/-! ### Along a session -/

/-- The position belongs to the account with this document, as far as its account is known. -/
def PartitionState.IsOf (s : PartitionState) (doc : UInt64) (instrument : ℕ) (c : CustodyRow) :
    Prop :=
  c.instrument = instrument ∧ ∀ d, s.holderOf c = some d → d = doc

/-- There is a row for the account that the trade moves to, and a position that may take the trade:
any for a purchase, also one that is still to be opened, and for a sale one that has the quantity or
may go short. -/
structure TradeAllocated.Takes (e : TradeAllocated) (s : PartitionState) (r : TradeRow) : Prop where
  account : e.toAccount ∈ s.accountKeys ∨ s.accounts.length < s.cap.accounts.toNat
  position : (e.side = kSideBuy ∧ s.custody.length < s.cap.positions.toNat) ∨
    ∃ c ∈ s.custody, s.IsOf e.toAccount r.instrument c ∧
      (e.side = kSideBuy ∨ c.shortAllowed = true ∨ ¬ c.available < e.qty)

/-- The event moves a trade and passes the checks of the handler, but the account it takes the
trade from does not hold it. What is pending of the other account pays for the move. -/
def TradeAllocated.Misplaces (e : TradeAllocated) (s : PartitionState) : Prop :=
  e.fromAccount ≠ e.toAccount ∧ ∃ r k c, s.tradeOf e.tradeId = some r ∧
    s.accountKeys[r.account]? ≠ some e.fromAccount ∧ r.state = TradeState.executed.code ∧
    e.qty = r.qty ∧ s.window.slotOf e.settlementDate = some k ∧ c ∈ s.custody ∧
    s.IsOf e.fromAccount r.instrument c ∧
    ¬ (if e.side = kSideBuy then c.pendingBuy k < e.qty else c.pendingSell k < e.qty) ∧
    e.Takes s r

/-- The lists are right, and every trade is of something. -/
structure PartitionState.Listed (s : PartitionState) : Prop where
  linked : s.Linked
  positive : ∀ r ∈ s.trades.map TradeRow.fixed, 0 < r.qty

/-- Trades have a positive quantity, from their execution on. -/
theorem Effect.positive {x : Event} (h : Effect s x s')
    (hpos : ∀ r ∈ s.trades.map TradeRow.fixed, 0 < r.qty) :
    ∀ r ∈ s'.trades.map TradeRow.fixed, 0 < r.qty := by
  cases @Effect.tradesStep _ _ _ h .kOk (.inl rfl) with
  | kept hrows =>
    rwa [hrows]
  | executed _ _ hrows =>
    rw [hrows]
    cases h with
    | tradeExecuted _ _ _ _ _ _ _ _ _ _ hqty =>
      intro r hr
      obtain hr | hr := List.mem_append.mp hr
      · exact hpos r hr
      · rw [List.mem_singleton.mp hr]
        exact hqty.1
  | opened _ _ hrows =>
    rw [hrows]
    exact fun r hr => hpos r ((List.filter_sublist.map TradeRow.fixed).subset hr)

/-- The account of a position that an allocation found in the state with the new rows. -/
theorem isOf_of_interned {c : CustodyRow} {acct : ℕ} {doc : UInt64} (hI : Interned s s₁)
    (hacct : s₁.accountKeys[acct]? = some doc) {instrument : ℕ}
    (howner : c.account = acct ∧ c.instrument = instrument) : s.IsOf doc instrument c := by
  refine ⟨howner.2, fun d hd => ?_⟩
  rw [holderOf, howner.1] at hd
  exact Option.some.inj ((hI.accountKey hd).symm.trans hacct)

/-- An allocation that was made had somewhere to go. -/
theorem takes_of_allocated {e : TradeAllocated} {r : TradeRow} {c : CustodyRow} {para pos : ℕ}
    (hpos : 0 < e.qty) (hI : Interned s s₁) (hto : s₁.accountKeys[para]? = some e.toAccount)
    (hc : s₁.custody[pos]? = some c) (howner : c.account = para ∧ c.instrument = r.instrument)
    (hshort : e.side = kSideBuy ∨ c.shortAllowed = true ∨ ¬ c.available < e.qty) :
    e.Takes s r := by
  have hcap := hI.cap
  obtain ⟨hcust, hacc, -, -⟩ := hI.sound.lengths
  rw [hcap] at hcust hacc
  refine ⟨?_, ?_⟩
  · obtain ⟨new, hnew, -⟩ := hI.accounts
    rcases Nat.lt_or_ge para s.accounts.length with hlt | hge
    · left
      rw [accountKeys, hnew, List.map_append, List.getElem?_append_left (by simpa using hlt)] at hto
      exact List.mem_of_getElem? hto
    · right
      have := (List.getElem?_eq_some_iff.mp hto).1
      rw [accountKeys, List.length_map] at this
      omega
  · obtain hold | ⟨hge, a, i, rfl⟩ := hI.custody_cases hc
    · exact .inr ⟨c, List.mem_of_getElem? hold, isOf_of_interned hI hto howner, hshort⟩
    · -- an empty position takes a purchase only
      refine .inl ⟨hshort.resolve_right ?_, ?_⟩
      · rintro (h | h)
        · exact absurd h (by simp [CustodyRow.shortAllowed, CustodyRow.cleared])
        · exact h hpos
      · have := (List.getElem?_eq_some_iff.mp hc).1
        omega

/-- The account row that an allocation takes the trade from is that of its holder. -/
theorem ownerIn_of_not_misplaces {e : TradeAllocated} {r : TradeRow} {k : Fin 3} {c : CustodyRow}
    {t de para pos : ℕ} (hs : s.Sound) (hpos : 0 < r.qty) (hI : Interned s s₁)
    (ht : s.tradeIndex.find e.tradeId = some t) (hr : s.trades[t]? = some r)
    (hstate : r.state = TradeState.executed.code)
    (hfrom : s₁.accountKeys[de]? = some e.fromAccount)
    (hto : s₁.accountKeys[para]? = some e.toAccount) (hne : de ≠ para)
    (hk : s.window.slotOf e.settlementDate = some k) (hqty : e.qty = r.qty)
    (hc : s₁.custody[pos]? = some c) (howner : c.account = de ∧ c.instrument = r.instrument)
    (hpend : ¬ (if e.side = kSideBuy then c.pendingBuy k < e.qty else c.pendingSell k < e.qty))
    (htakes : e.Takes s r) (hnot : ¬ e.Misplaces s) : ownerIn s₁.trades t = some de := by
  have hheld : s.accountKeys[r.account]? = some e.fromAccount := by
    by_contra hother
    refine hnot ⟨fun hsame => ?_, r, k, c, tradeOf_eq hs ht hr, hother, hstate, hqty, hk, ?_,
      ⟨howner.2, fun doc hdoc => ?_⟩, hpend, htakes⟩
    · exact hne (hI.sound.account_inj (hfrom.trans (congrArg some hsame)) hto)
    · obtain hold | ⟨-, a, i, rfl⟩ := hI.custody_cases hc
      · exact List.mem_of_getElem? hold
      · -- an empty position cannot pay for the move
        rw [← hqty] at hpos
        split_ifs at hpend
        · exact absurd hpos hpend
        · exact absurd hpos hpend
    · exact (isOf_of_interned hI hfrom howner).2 doc hdoc
  rw [hI.trades, ownerIn_eq hr, hI.sound.account_inj (hI.accountKey hheld) hfrom]

/-- By cases on the effect: an execution attaches its trade in front, an allocation that is not
misplaced takes it off one list and puts it on another, and the others leave the links. -/
theorem Effect.linked {x : Event} (h : Effect s x s') (hs : s.Sound) (hl : s.Listed)
    (hnot : ∀ e, x = .tradeAllocated e → ¬ e.Misplaces s) : s'.Linked := by
  have hkept : ∀ {s₁}, Interned s s₁ → s₁.Linked := fun hI => hl.linked.kept hI.kept
  cases h with
  | dayOpened _ _ h => exact hl.linked.openDay h
  | @tradeExecuted e s₁ k gross fees cash i c c' a a' acct inst pos hI _ _ _ _ _ _ _ _ _ _ _ _ _ _ _
      ha ha' =>
    refine (hkept hI).execute (r := newTrade e acct inst cash a'.firstTrade) ha ?_ rfl ?_ rfl ?_
    · rw [hI.trades]
    · exact (keepsAccount_addPending _ _ _ _ ha').2
    · rw [hI.trades]
  | allocatedInPlace hI _ hr =>
    exact (hkept hI).ofRows rfl (by rw [hI.trades]; exact map_set_of_eq hr rfl)
  | @allocated e s₁ s₂ r r' k c₁ c₁' c₂ c₂' a₁ a₁' a₂ a₂' t de para posDe posPara hI ht hr hstate
      hfrom hto hne hk hqty hc₁ how₁ hc₂ how₂ hpend hshort _ _ ha₁ ha₁' ha₂ ha₂' hlink hr' =>
    have hpos : 0 < r.qty := hl.positive r.fixed (List.mem_map_of_mem (List.mem_of_getElem? hr))
    -- the trade is in the list of the account that the event takes it from
    have hown := ownerIn_of_not_misplaces hs hpos hI ht hr hstate hfrom hto hne hk hqty hc₁ how₁
      hpend (takes_of_allocated (hqty ▸ hpos) hI hto hc₂ how₂ hshort) (hnot e rfl)
    -- the pending buckets change before the lists do; they are no part of them
    have hmoved : s₂.Linked := by
      refine PartitionState.Linked.relinkTrade ?_ (by exact hown) hlink
      refine (hkept hI).congr ?_ rfl rfl
      exact map_set_set_of_eq hne ha₁ (keepsAccount_subPending _ _ _ _ ha₁').2 ha₂
        (keepsAccount_addPending _ _ _ _ ha₂').2
    exact hmoved.ofRows rfl (map_set_of_eq hr' rfl)
  | batchNetted hI _ _ _ _ hadv hlog =>
    obtain ⟨xs, n, d, rfl⟩ := hlog
    exact (hkept hI).ofRows rfl (by rw [hI.trades]; exact advance_rows hadv)
  | tradeSettled hI hfind _ hrows hadv hlog =>
    obtain ⟨xs, n, d, rfl⟩ := hlog
    refine (hkept hI).ofRows ?_ (by rw [hI.trades]; exact advance_rows hadv)
    exact map_set_of_eq hfind.cash (keepsAccount_outcome hrows).2
  | corporateActionApplied hI _ _ _ _ ha _ _ _ _ _ _ ha₁ ha' hlog =>
    obtain ⟨xs, n, d, rfl⟩ := hlog
    refine (hkept hI).ofRows (map_set_of_eq ha ?_) rfl
    exact (keepsAccount_withholdTax _ _ _ ha').2.trans (keepsAccount_actCash _ _ _ _ ha₁).2
  | dividendPaid hI _ _ _ _ ha ha' =>
    exact (hkept hI).ofRows (map_set_of_eq ha (keepsAccount_creditIncome _ _ _ ha').2) rfl
  | closingPriceSet hI => exact (hkept hI).ofRows rfl rfl
  | custodyReconciled =>
    obtain ⟨xs, n, d, f, hrest⟩ := recordDivergences_rest _ _ s
    rw [hrest]
    exact hl.linked.ofRows rfl rfl
  | eodMarked => exact hl.linked.ofRows rfl rfl

/-- An accepted event keeps the lists and the quantities. -/
theorem Effect.listed {x : Event} (h : Effect s x s') (hs : s.Sound) (hl : s.Listed)
    (hnot : ∀ e, x = .tradeAllocated e → ¬ e.Misplaces s) : s'.Listed :=
  ⟨h.linked hs hl hnot, h.positive hl.positive⟩

/-- An event that ends without effect keeps the lists. -/
theorem Ended.listed {ev : EventView} {st : Status} (h : Ended s ev st s') (hs : s.Sound)
    (hl : s.Listed) (hnot : classify st ≠ .rejected →
      ∀ e, LogRecord.event ev = some (.tradeAllocated e) → ¬ e.Misplaces s) : s'.Listed := by
  have hkept : ∀ {s₁}, Kept s s₁ → s₁.Listed := fun hk =>
    ⟨hl.linked.kept hk, by rw [hk.trades]; exact hl.positive⟩
  cases h with
  | turned hk => exact hkept hk
  | executedBefore | diverged => exact hl
  | actionBefore _ hI | incomeBefore _ hI => exact hkept hI.kept
  | refused _ hI =>
    obtain ⟨hlinked, hpos⟩ := hkept hI.kept
    exact ⟨hlinked.ofRows rfl rfl, hpos⟩
  | unpublished hev _ heff | corrupt hev _ heff =>
    exact heff.listed hs hl fun e he => hnot nofun e (he ▸ hev)
  | @corruptMove e _ t r _ hev heff _ hr =>
    -- the move was made, only the state of the trade is still the old one
    obtain ⟨hlinked, hpos⟩ := heff.listed hs hl fun e he => hnot nofun e (he ▸ hev)
    have hset : ∀ {γ : Type} (f : TradeRow → γ),
        f { r with state := TradeState.allocated.code } = f r → s'.trades.map f =
          (s'.trades.set t { r with state := TradeState.allocated.code }).map f :=
      fun f hf => (map_set_of_eq hr hf).symm
    exact ⟨hlinked.ofRows rfl (hset _ rfl), by rw [hset _ rfl]; exact hpos⟩

/-- **One step.** -/
theorem listed_apply (hs : s.Sound) (hl : s.Listed) {o : Option Outbox} {ev : EventView}
    {st : Status} {e : Engine} (h : apply ⟨s, o⟩ ev = .ok (st, e))
    (hnot : classify st ≠ .rejected →
      ∀ e, LogRecord.event ev = some (.tradeAllocated e) → ¬ e.Misplaces s) :
    e.s.Listed := by
  obtain ⟨s', hs', hcases⟩ := apply_cases hs h
  have hl' : s'.Listed := by
    obtain ⟨rfl, x, hx, heff⟩ | hend := hcases
    · exact heff.listed hs hl fun e he => hnot nofun e (he ▸ hx)
    · exact hend.listed hs hl hnot
  rw [hs']
  exact ⟨hl'.linked.ofRows rfl rfl, hl'.positive⟩

/-- States that no event can tell apart have the same lists. -/
theorem Agree.listed (h : Agree s s') (hl : s.Listed) : s'.Listed := by
  have hsame := h.sameState
  exact ⟨hl.linked.ofRows (by rw [hsame.accounts]) (by rw [hsame.trades]),
    by rw [← hsame.trades]; exact hl.positive⟩

/-- **A whole session**, saved and loaded anywhere. -/
theorem Session.listed {s₀ : PartitionState} {steps : List Step} (h : Session s₀ steps s)
    (hs₀ : s₀.Sound) (hl₀ : s₀.Listed)
    (hnot : ∀ x ∈ steps, classify x.st ≠ .rejected →
      ∀ e, LogRecord.event x.ev = some (.tradeAllocated e) → ¬ e.Misplaces x.before) :
    s.Listed := by
  induction h with
  | start => exact hl₀
  | @event steps s o ev st e h happ ih =>
    refine listed_apply (h.sound hs₀) (ih fun x hx => hnot x (List.mem_append_left _ hx)) happ ?_
    exact hnot ⟨s, ev, st, e.s⟩ (by simp)
  | reload h hsave hload ih => exact (agree_of_load (h.sound hs₀) hsave hload).listed (ih hnot)

/-- A state just initialised has no trades. -/
theorem listed_init {arena arena₀ : Arena} {pid : UInt16} {c : PartitionCapacity}
    (h : blank.init arena pid c = .ok (true, s, arena₀)) : s.Listed := by
  obtain ⟨-, -, slots, -, rfl⟩ := init_eq_ok h
  refine ⟨⟨fun a l hl => ?_, fun r hr => ?_⟩, fun r hr => ?_⟩
  · cases hl
  · cases hr
  · cases hr

end MotorRv
