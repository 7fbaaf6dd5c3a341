import MotorRv.Core.Effects

/-!
# Rows without their links

The lists of trades run through two columns: the first trade of an account and the next trade of a
trade. Taking these two out, the effect of each event on a table is a change of the rows it names;
moving a trade between lists changes its account, and opening a day rotates every row and removes
the trades that are closed.

Two tables that agree without their links agree in everything that does not look at links: the sums
over positions and money, the states of trades, the keys of rows (`map_of_unlinkedTrades` and
`map_of_unlinkedAccounts`). Most invariants are of this kind, and for them moving a trade is a
change of one field and compaction is a filter. The lists themselves have their own invariant, which
is proved where the links are.
-/

namespace MotorRv

open Lib PartitionState Apply

/-- An account row without the head of its list. -/
def AccountRow.unlinked (a : AccountRow) : AccountRow := { a with firstTrade := none }

/-- A trade row without the link to the next. -/
def TradeRow.unlinked (r : TradeRow) : TradeRow := { r with next := none }

/-- Rows that agree without links agree in whatever does not look at them. -/
theorem map_of_unlinkedAccounts {γ : Type} (key : AccountRow → γ)
    (hkey : ∀ a, key a.unlinked = key a) {as as' : List AccountRow}
    (h : as'.map AccountRow.unlinked = as.map AccountRow.unlinked) : as'.map key = as.map key :=
  map_of_map_first key hkey h

theorem map_of_unlinkedTrades {γ : Type} (key : TradeRow → γ) (hkey : ∀ r, key r.unlinked = key r)
    {ts ts' : List TradeRow} (h : ts'.map TradeRow.unlinked = ts.map TradeRow.unlinked) :
    ts'.map key = ts.map key :=
  map_of_map_next key hkey h

/-! ### Moving a trade -/

theorem unlinkTrade_rows {s s' : PartitionState} {acct t : ℕ} {b : Bool}
    (h : unlinkTrade s acct t = .ok (b, s')) :
    s'.accounts.map AccountRow.unlinked = s.accounts.map AccountRow.unlinked ∧
      s'.trades.map TradeRow.unlinked = s.trades.map TradeRow.unlinked ∧
      s' = { s with accounts := s'.accounts, trades := s'.trades } := by
  simp only [unlinkTrade, bind, except_bind_eq_ok] at h
  obtain ⟨a, ha, h⟩ := h
  split at h
  · obtain ⟨-, rfl⟩ := Prod.mk.inj (Except.ok.inj h)
    exact ⟨rfl, rfl, rfl⟩
  · rename_i first hfirst
    split_ifs at h with heq
    · simp only [except_bind_eq_ok] at h
      obtain ⟨r, -, h⟩ := h
      obtain ⟨-, rfl⟩ := Prod.mk.inj (Except.ok.inj h)
      exact ⟨map_set_of_eq (rowAt_eq_ok.mp ha) rfl, rfl, rfl⟩
    · simp only [except_bind_eq_ok] at h
      obtain ⟨p, -, h⟩ := h
      split at h
      · obtain ⟨-, rfl⟩ := Prod.mk.inj (Except.ok.inj h)
        exact ⟨rfl, rfl, rfl⟩
      · simp only [except_bind_eq_ok] at h
        obtain ⟨r, -, rows, hrows, h⟩ := h
        obtain ⟨-, rfl⟩ := Prod.mk.inj (Except.ok.inj h)
        obtain ⟨q, q', hq, hq', rfl⟩ := modRow_eq_ok.mp hrows
        obtain rfl := Except.ok.inj hq'
        exact ⟨rfl, map_set_of_eq hq rfl, rfl⟩

/-- A trade that is moved changes its account. -/
theorem relinkTrade_rows {s s' : PartitionState} {de para t : ℕ}
    (h : relinkTrade de para t s = .ok s') :
    s'.accounts.map AccountRow.unlinked = s.accounts.map AccountRow.unlinked ∧
      (∃ r, s.trades[t]? = some r ∧ s'.trades.map TradeRow.unlinked =
        (s.trades.set t { r with account := para }).map TradeRow.unlinked) ∧
      s' = { s with accounts := s'.accounts, trades := s'.trades } := by
  simp only [relinkTrade, bind, except_bind_eq_ok] at h
  obtain ⟨⟨b, s₁⟩, hun, a, ha, rows, hrows, h⟩ := h
  obtain ⟨hacc, htr, hrest⟩ := unlinkTrade_rows hun
  obtain ⟨q, q', hq, hq', rfl⟩ := modRow_eq_ok.mp hrows
  obtain rfl := Except.ok.inj hq'
  obtain rfl := Except.ok.inj h
  refine ⟨?_, ?_, by rw [hrest]⟩
  · rw [← hacc]
    exact map_set_of_eq (rowAt_eq_ok.mp ha) rfl
  have hi := congrArg (fun l => l[t]?) htr
  simp only [List.getElem?_map, hq, Option.map_some] at hi
  obtain ⟨r, hr, heq⟩ := Option.map_eq_some_iff.mp hi.symm
  refine ⟨r, hr, ?_⟩
  rw [List.map_set, List.map_set, htr]
  congr 1
  have : ({ r.unlinked with account := para } : TradeRow) =
    { q.unlinked with account := para } := by
    rw [heq]
  exact this.symm

/-! ### Opening a day -/

/-- What the opening of a day does to every table. -/
structure Opened (e : DayOpened) (s s' : PartitionState) : Prop where
  custody : List.Forall₂ (fun c c' => rotateCustody s.window (newWindow e) c = .ok c')
    s.custody s'.custody
  accounts : List.Forall₂ (fun a a' => ∃ a₁, rotateCash s.window (newWindow e) a = .ok a₁ ∧
    a'.unlinked = a₁.unlinked) s.accounts s'.accounts
  trades : s'.trades.map TradeRow.unlinked =
    (s.trades.filter fun t => !closes (newWindow e) t).map TradeRow.unlinked
  instruments : s'.instruments = s.instruments
  window : s'.window = newWindow e
  businessDate : s'.businessDate = e.businessDate
  appliedActions :
    s'.appliedActions = s.appliedActions.maybeRotate e.businessDate s.cap.idempotencyWindowDays
  appliedIncome :
    s'.appliedIncome = s.appliedIncome.maybeRotate e.businessDate s.cap.idempotencyWindowDays
  cap : s'.cap = s.cap

/-- What compaction does: the closed trades go, the links are made anew. -/
theorem closeAndCompact_rows {s s' : PartitionState} (h : s.closeAndCompactTrades = .ok s') :
    s'.accounts.map AccountRow.unlinked = s.accounts.map AccountRow.unlinked ∧
      s'.trades.map TradeRow.unlinked =
        (s.trades.filter fun t => !closes s.window t).map TradeRow.unlinked ∧
      ∃ ti, s' = { s with accounts := s'.accounts, trades := s'.trades, tradeIndex := ti } := by
  unfold closeAndCompactTrades at h
  split_ifs at h with hany
  · simp only [bind, except_bind_eq_ok] at h
    obtain ⟨⟨trades, accounts⟩, hrel, h⟩ := h
    obtain rfl := Except.ok.inj h
    obtain ⟨h1, h2, -⟩ := relink_rows (P := fun _ => True) hrel (fun _ _ => trivial)
      fun _ _ _ => trivial
    refine ⟨?_, h1, _, rfl⟩
    have h2' : accounts.map AccountRow.unlinked = _ := h2
    rw [h2', List.map_map]
    rfl
  · obtain rfl := Except.ok.inj h
    refine ⟨rfl, ?_, _, rfl⟩
    rw [List.filter_eq_self.mpr]
    intro t ht
    simp only [Bool.not_eq_true, List.any_eq_false] at hany
    simpa using hany t ht

theorem opened_of_openDay {e : DayOpened} {s s' : PartitionState} (h : openDay e s = .ok s') :
    Opened e s s' := by
  simp only [openDay, bind, except_bind_eq_ok] at h
  obtain ⟨custody, hc, accounts, ha, h⟩ := h
  obtain ⟨hacc, htr, ti, hrest⟩ := closeAndCompact_rows h
  have hacc' := mapM_forall₂ ha
  refine ⟨by rw [hrest]; exact mapM_forall₂ hc, ?_, htr, ?_, ?_, ?_, ?_, ?_, ?_⟩
  · have hlen := congrArg List.length hacc
    simp only [List.length_map] at hlen
    rw [List.forall₂_iff_get]
    refine ⟨hacc'.length_eq.trans hlen.symm, fun i h1 h2 => ?_⟩
    have hi := congrArg (fun l => l[i]?) hacc
    simp only [List.getElem?_map, List.getElem?_eq_getElem h2,
      List.getElem?_eq_getElem (hlen ▸ h2 : i < accounts.length), Option.map_some,
      Option.some.injEq] at hi
    exact ⟨_, (List.forall₂_iff_get.mp hacc').2 i h1 (hlen ▸ h2), hi⟩
  all_goals rw [hrest]

end MotorRv
