import MotorRv.Core.TradeLists

/-!
# Taking a trade out of a list

The lists of the accounts share one column of links. In a state where each of them ends and no two
have a trade in common, whoever the trades are booked to, `unlink_trade` takes one trade out of one
list: the others keep their links, since the one link it writes stands in that list.

The hypothesis is weaker than the invariant of a session: `ListsApart` does not ask that the trades
on a list belong to its account, so the result also covers states in which an allocation was
misplaced, as long as the lists have no trade in common. The three cases are the head of the list, a
place behind another row, and a trade that is not there, for which nothing is written and the answer
is false. Each case names the one cell that changes.
-/

namespace MotorRv

open Lib Apply

/-- The list of an account: its rows in the order of the links. -/
def PartitionState.ListOf (s : PartitionState) (acct : ℕ) (is : List ℕ) : Prop :=
  ∃ a, s.accounts[acct]? = some a ∧ Chain (linkIn s.trades) a.firstTrade is

/-- Every list ends, and no two have a trade in common. -/
structure PartitionState.ListsApart (s : PartitionState) : Prop where
  ends : ∀ acct < s.accounts.length, ∃ is, s.ListOf acct is
  disjoint : ∀ {acct acct' : ℕ} {is js : List ℕ}, s.ListOf acct is → s.ListOf acct' js →
    acct ≠ acct' → is.Disjoint js

variable {s s' : PartitionState} {acct t : ℕ} {is js : List ℕ}

theorem PartitionState.ListOf.unique (h : s.ListOf acct is) (h' : s.ListOf acct js) : is = js := by
  obtain ⟨a, ha, hchain⟩ := h
  obtain ⟨a', ha', hchain'⟩ := h'
  obtain rfl := Option.some.inj (ha.symm.trans ha')
  exact hchain.unique hchain'

theorem length_le_of_chain {rows : List TradeRow} {l : Option ℕ} (h : Chain (linkIn rows) l is) :
    is.length ≤ rows.length := by
  refine h.length_le fun i hi => ?_
  obtain ⟨js, ks, rfl⟩ := List.append_of_mem hi
  obtain ⟨l, hl, -⟩ := h.split
  exact lt_of_linkIn hl

/-- A new head of one account leaves the other lists alone. -/
theorem listOf_set_account {a : AccountRow} {acct' : ℕ} (hne : acct' ≠ acct) :
    ({ s with accounts := s.accounts.set acct a } : PartitionState).ListOf acct' js ↔
      s.ListOf acct' js := by
  unfold PartitionState.ListOf
  dsimp only
  rw [List.getElem?_set_ne hne.symm]

/-- A new link of a row leaves the lists alone that do not visit it. -/
theorem listOf_set_trade {p : ℕ} {q : TradeRow} {l : Option ℕ} (hq : s.trades[p]? = some q)
    (hp : p ∉ js) (h : s.ListOf acct js) :
    ({ s with trades := s.trades.set p { q with next := l } } : PartitionState).ListOf acct js := by
  obtain ⟨a, ha, hchain⟩ := h
  refine ⟨a, ha, ?_⟩
  unfold linkIn at hchain ⊢
  rw [column_set (·.next) hq]
  exact hchain.update hp _

section Cases

variable {a : AccountRow} {r : TradeRow}

/-- The trade is the head of the list. -/
theorem unlinkTrade_head (ha : s.accounts[acct]? = some a) (hfirst : a.firstTrade = some t)
    (hr : s.trades[t]? = some r) : unlinkTrade s acct t =
      .ok (true, { s with accounts := s.accounts.set acct { a with firstTrade := r.next } }) := by
  simp only [unlinkTrade, rowAt_eq_ok.mpr ha, bind, Except.bind, hfirst, if_true,
    rowAt_eq_ok.mpr hr]

/-- The trade stands behind another one. -/
theorem unlinkTrade_behind {first p : ℕ} {q : TradeRow} (ha : s.accounts[acct]? = some a)
    (hfirst : a.firstTrade = some first) (hne : first ≠ t)
    (hp : predecessor s.trades t s.trades.length first = .ok (some p)) (hr : s.trades[t]? = some r)
    (hq : s.trades[p]? = some q) : unlinkTrade s acct t =
      .ok (true, { s with trades := s.trades.set p { q with next := r.next } }) := by
  have hmod : modRow s.trades p (fun q => .ok { q with next := r.next }) =
      .ok (s.trades.set p { q with next := r.next }) := modRow_eq_ok.mpr ⟨q, _, hq, rfl, rfl⟩
  simp only [unlinkTrade, rowAt_eq_ok.mpr ha, bind, Except.bind, hfirst, if_neg hne, hp,
    rowAt_eq_ok.mpr hr, hmod]

/-- The list ends without the trade. -/
theorem unlinkTrade_absent {first : ℕ} (ha : s.accounts[acct]? = some a)
    (hfirst : a.firstTrade = some first) (hne : first ≠ t)
    (hp : predecessor s.trades t s.trades.length first = .ok none) :
    unlinkTrade s acct t = .ok (false, s) := by
  simp only [unlinkTrade, rowAt_eq_ok.mpr ha, bind, Except.bind, hfirst, if_neg hne, hp]

end Cases

theorem row_of_linkIn {rows : List TradeRow} {l : Option ℕ} (h : linkIn rows t = some l) :
    ∃ r, rows[t]? = some r ∧ r.next = l := by
  rw [linkIn, List.getElem?_map, Option.map_eq_some_iff] at h
  exact h

theorem erase_behind {xs ys : List ℕ} {p : ℕ} (h : (xs ++ p :: t :: ys).Nodup) :
    (xs ++ p :: t :: ys).erase t = xs ++ p :: ys := by
  obtain ⟨-, hpt, hdis⟩ := List.nodup_append.mp h
  have hxs : t ∉ xs := fun ht => hdis t ht t (by simp) rfl
  have hp : p ≠ t := by
    rintro rfl
    exact (List.nodup_cons.mp hpt).1 List.mem_cons_self
  rw [List.erase_append_right _ hxs, List.erase_cons_tail (by simpa using hp), List.erase_cons_head]

/-- **One trade out of one list.** If the trade is in the list of the account, it is taken out of it
and nothing else happens to any list; if it is not, nothing happens. -/
theorem unlinkTrade_exact (hs : s.ListsApart) (hlist : s.ListOf acct is) (t : ℕ) :
    (t ∈ is → ∃ s', unlinkTrade s acct t = .ok (true, s') ∧ s'.ListOf acct (is.erase t) ∧
      ∀ acct' ≠ acct, ∀ js, s.ListOf acct' js ↔ s'.ListOf acct' js) ∧
    (t ∉ is → unlinkTrade s acct t = .ok (false, s)) := by
  obtain ⟨a, ha, hchain⟩ := id hlist
  have hle := length_le_of_chain hchain
  cases hfirst : a.firstTrade with
  | none =>
    rw [hfirst] at hchain
    cases hchain
    refine ⟨fun ht => absurd ht List.not_mem_nil, fun _ => ?_⟩
    simp only [unlinkTrade, rowAt_eq_ok.mpr ha, bind, Except.bind, hfirst]
  | some first =>
    rw [hfirst] at hchain
    by_cases heq : first = t
    · -- the trade is the head
      subst heq
      cases hchain with
      | @cons _ l rest hi hrest =>
        obtain ⟨r, hr, rfl⟩ := row_of_linkIn hi
        refine ⟨fun _ => ⟨_, unlinkTrade_head ha hfirst hr, ?_, fun acct' hne js =>
          (listOf_set_account hne).symm⟩, fun ht => absurd List.mem_cons_self ht⟩
        rw [List.erase_cons_head]
        exact ⟨_, List.getElem?_set_self (List.getElem?_eq_some_iff.mp ha).1, hrest⟩
    obtain ⟨xs, p, ys, hp, rfl⟩ | ⟨hp, hnot⟩ := predecessor_chain hchain hle (t := t)
    · -- the trade stands behind `p`
      refine ⟨fun _ => ?_, fun ht => absurd (by simp) ht⟩
      obtain ⟨l, hl, -⟩ := (List.append_cons xs p (t :: ys) ▸ hchain).split
      obtain ⟨r, hr, rfl⟩ := row_of_linkIn hl
      obtain ⟨m, hm, -⟩ := hchain.split
      obtain ⟨q, hq, -⟩ := row_of_linkIn hm
      refine ⟨_, unlinkTrade_behind ha hfirst heq hp hr hq, ?_, fun acct' hne js => ?_⟩
      · rw [erase_behind hchain.nodup]
        refine ⟨a, ha, ?_⟩
        have hskip := hchain.skip hl
        rw [hfirst]
        unfold linkIn at hskip ⊢
        rw [column_set (·.next) hq]
        exact hskip
      · -- another list does not visit `p`
        have hkeep : ∀ ks, s.ListOf acct' ks → ({ s with
            trades := s.trades.set p { q with next := r.next } } :
              PartitionState).ListOf acct' ks :=
          fun ks hks => listOf_set_trade hq (fun hpk =>
            hs.disjoint hlist hks hne.symm (by simp) hpk) hks
        refine ⟨hkeep js, fun hjs => ?_⟩
        obtain ⟨b, hb, -⟩ := id hjs
        obtain ⟨ks, hks⟩ := hs.ends acct' (List.getElem?_eq_some_iff.mp hb).1
        rwa [(hkeep ks hks).unique hjs] at hks
    · -- the walk came to the end of the list
      have hout : t ∉ is := by
        cases hchain with
        | cons _ _ => exact fun ht => hnot ((List.mem_cons.mp ht).resolve_left (Ne.symm heq))
      exact ⟨fun ht => absurd ht hout, fun _ => unlinkTrade_absent ha hfirst heq hp⟩

/-- Two accounts, the first with the trades 2 and 0, the second with the trade 1. -/
def twoLists : PartitionState :=
  { PartitionState.blank with
    accounts := [⟨0, fun _ => 0, 0, 0, 1, some 2⟩, ⟨0, fun _ => 0, 0, 0, 2, some 1⟩]
    trades := [⟨1, 0, 0, 0, 1, 1, 1, 0, 1, 0, none⟩, ⟨2, 0, 1, 0, 1, 1, 1, 0, 1, 0, none⟩,
      ⟨3, 0, 0, 0, 1, 1, 1, 0, 1, 0, some 0⟩] }

theorem twoLists_listOf : twoLists.ListOf 0 [2, 0] ∧ twoLists.ListOf 1 [1] :=
  ⟨⟨_, rfl, .cons rfl (.cons rfl .nil)⟩, ⟨_, rfl, .cons rfl .nil⟩⟩

theorem twoLists_apart : twoLists.ListsApart where
  ends
    | 0, _ => ⟨_, twoLists_listOf.1⟩
    | 1, _ => ⟨_, twoLists_listOf.2⟩
    | n + 2, h => absurd h (by simp [twoLists])
  disjoint := by
    have hlt : ∀ {acct is}, twoLists.ListOf acct is → acct < 2 := fun ⟨_, ha, _⟩ =>
      (List.getElem?_eq_some_iff.mp ha).1
    intro acct acct' is js h h' hne
    have hacct := hlt h
    have hacct' := hlt h'
    obtain ⟨rfl, rfl⟩ | ⟨rfl, rfl⟩ : acct = 0 ∧ acct' = 1 ∨ acct = 1 ∧ acct' = 0 := by omega
    · rw [h.unique twoLists_listOf.1, h'.unique twoLists_listOf.2]
      simp
    · rw [h.unique twoLists_listOf.2, h'.unique twoLists_listOf.1]
      simp

/-- The last trade of the first list is taken out. -/
theorem unlinkTrade_exact_last : ∃ s', unlinkTrade twoLists 0 0 = .ok (true, s') ∧
    s'.ListOf 0 [2] ∧ s'.ListOf 1 [1] ∧ unlinkTrade twoLists 0 1 = .ok (false, twoLists) := by
  obtain ⟨s', hrun, hlist, hother⟩ :=
    (unlinkTrade_exact twoLists_apart twoLists_listOf.1 0).1 (by decide)
  exact ⟨s', hrun, hlist, (hother 1 (by decide) [1]).mp twoLists_listOf.2,
    (unlinkTrade_exact twoLists_apart twoLists_listOf.1 1).2 (by decide)⟩

end MotorRv
