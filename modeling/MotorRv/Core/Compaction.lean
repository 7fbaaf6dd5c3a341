import MotorRv.Core.TradeLists

/-!
# Compaction of the trade table

`closeAndCompactInPlace` is `close_and_compact_trades` with its two cursors over one table and the
count it returns. It keeps the trades that are not closed, in order, and threads the lists and the
index anew; `closeAndCompactTrades`, which the opening of a day calls, is the same as a filter.

`compactRows` is the loop over the table with its two cursors, and `CompactedTo` its invariant: the
survivors among the rows seen so far stand before the cursor that writes, and the rows not yet seen
are as they were. The links are not carried over but made again, from the back to the front, so that
each account's list runs through its rows in increasing order (`chain_relink`).

`compacted_of_unique` needs unique trade ids, for the index, and an account for every trade; both
are invariants of a session. The structure `Compacted` names what callers use of the result: the
survivors in their order, the lists, the index, and everything else unchanged.
-/

namespace MotorRv

open Lib PartitionState Apply

/-! ### Two cursors -/

/-- The cursor that writes, the number of trades closed, and the table. -/
structure Compacting where
  destino : ℕ
  baixados : ℕ
  rows : List TradeRow

/-- Row `i`: closed, or copied to the cursor that writes. Every column is copied but the link. -/
def compactRow (w : SettlementWindow) (i : ℕ) (x : Compacting) : Exec Compacting := do
  let r ← rowAt x.rows i
  if closes w r then .ok { x with baixados := x.baixados + 1 }
  else if x.destino ≠ i then do
    let rows ← modRow x.rows x.destino fun q => .ok { r with next := q.next }
    .ok { x with destino := x.destino + 1, rows := rows }
  else .ok { x with destino := x.destino + 1 }

/-- The next `n` rows from row `i`. -/
def compactRows (w : SettlementWindow) : ℕ → ℕ → Compacting → Exec Compacting
  | 0, _, x => .ok x
  | n + 1, i, x => do
    let x ← compactRow w i x
    compactRows w n (i + 1) x

/-- `close_and_compact_trades`, and the number it returns. -/
def closeAndCompactInPlace (s : PartitionState) : Exec (ℕ × PartitionState) := do
  let x ← compactRows s.window s.trades.length 0 ⟨0, 0, s.trades⟩
  if x.baixados = 0 then .ok (0, { s with trades := x.rows })
  else do
    let (trades, accounts) ← relink 0 (x.rows.take x.destino)
      (s.accounts.map fun a => { a with firstTrade := none })
    .ok (x.baixados, { s with
      trades := trades
      accounts := accounts
      tradeIndex := insertKeysUnchecked s.tradeIndex.clear 0 (trades.map (·.tradeId)) })

/-- The trades that a compaction keeps. -/
def survivors (w : SettlementWindow) (rows : List TradeRow) : List TradeRow :=
  rows.filter fun t => !closes w t

/-- After `i` rows of `ts`: the survivors among them stand before the cursor, links apart, and the
rows from `i` on are as they were. -/
structure CompactedTo (w : SettlementWindow) (ts : List TradeRow) (i : ℕ) (x : Compacting) :
    Prop where
  length : x.rows.length = ts.length
  le : i ≤ ts.length
  cursors : x.destino + x.baixados = i
  kept : (x.rows.take x.destino).map TradeRow.unlinked =
    (survivors w (ts.take i)).map TradeRow.unlinked
  rest : x.rows.drop i = ts.drop i
  same : x.baixados = 0 → x.rows = ts

theorem survivors_append (w : SettlementWindow) (xs ys : List TradeRow) :
    survivors w (xs ++ ys) = survivors w xs ++ survivors w ys := List.filter_append ..

theorem compactRow_spec {w : SettlementWindow} {ts : List TradeRow} {i : ℕ} {x : Compacting}
    (h : CompactedTo w ts i x) (hi : i < ts.length) :
    ∃ x', compactRow w i x = .ok x' ∧ CompactedTo w ts (i + 1) x' := by
  obtain ⟨r, hr⟩ : ∃ r, ts[i]? = some r := ⟨_, List.getElem?_eq_getElem hi⟩
  -- the row at the read cursor has not been written over yet
  have hrow : x.rows[i]? = some r := by
    have hdrop := congrArg (fun l => l[0]?) h.rest
    simpa only [List.getElem?_drop, Nat.add_zero, hr] using hdrop
  have htake : ts.take (i + 1) = ts.take i ++ [r] := by
    rw [List.take_add_one, hr]
    rfl
  have hcur := h.cursors
  unfold compactRow
  rw [rowAt_eq_ok.mpr hrow]
  by_cases hclose : closes w r = true
  -- a trade that closes is passed over
  · refine ⟨{ x with baixados := x.baixados + 1 }, if_pos hclose, h.length, hi, ?_, ?_, ?_, ?_⟩
    · dsimp only
      omega
    · rw [h.kept, htake, survivors_append]
      simp [survivors, hclose]
    · rw [← List.drop_drop, ← List.drop_drop, h.rest]
    · intro h0
      simp at h0
  · have hsurv : survivors w [r] = [r] := by simp [survivors, hclose]
    have hlt : x.destino < x.rows.length := by
      rw [h.length]
      omega
    -- one that stays is copied down, unless nothing before it was closed
    by_cases hcopy : x.destino ≠ i
    · obtain ⟨q, hq⟩ : ∃ q, x.rows[x.destino]? = some q := ⟨_, List.getElem?_eq_getElem hlt⟩
      refine ⟨{ x with
        destino := x.destino + 1
        rows := x.rows.set x.destino { r with next := q.next } }, ?_, ?_, hi, ?_, ?_, ?_, ?_⟩
      · have hmod : modRow x.rows x.destino (fun q => .ok { r with next := q.next }) =
            .ok (x.rows.set x.destino { r with next := q.next }) :=
          modRow_eq_ok.mpr ⟨q, _, hq, rfl, rfl⟩
        change (if closes w r = true then _ else _) = _
        rw [if_neg hclose, if_pos hcopy, hmod]
        rfl
      · rw [List.length_set, h.length]
      · dsimp only
        omega
      · dsimp only
        rw [htake, survivors_append, hsurv, List.map_append, ← h.kept, List.take_add_one,
          List.getElem?_set_self hlt, List.take_set_of_le (by omega), List.map_append]
        rfl
      · rw [List.drop_set_of_lt (by omega), ← List.drop_drop, ← List.drop_drop, h.rest]
      · intro h0
        dsimp only at h0
        omega
    · refine ⟨{ x with destino := x.destino + 1 }, ?_, h.length, hi, ?_, ?_, ?_, h.same⟩
      · change (if closes w r = true then _ else _) = _
        rw [if_neg hclose, if_neg hcopy]
      · dsimp only
        omega
      · rw [htake, survivors_append, hsurv, List.map_append, ← h.kept]
        dsimp only
        rw [List.take_add_one, show x.destino = i by omega, hrow, List.map_append]
        rfl
      · rw [← List.drop_drop, ← List.drop_drop, h.rest]

theorem compactRows_spec {w : SettlementWindow} {ts : List TradeRow} : ∀ {n i : ℕ} {x : Compacting},
    CompactedTo w ts i x → i + n = ts.length →
      ∃ x', compactRows w n i x = .ok x' ∧ CompactedTo w ts ts.length x' := by
  intro n
  induction n with
  | zero =>
    intro i x h hi
    exact ⟨x, rfl, hi ▸ h⟩
  | succ n ih =>
    intro i x h hi
    obtain ⟨x₁, hx₁, h₁⟩ := compactRow_spec h (by omega)
    obtain ⟨x', hx', h'⟩ := ih h₁ (by omega)
    refine ⟨x', ?_, h'⟩
    rw [compactRows, hx₁]
    exact hx'

/-! ### Lists -/

/-- The rows of an account, numbered from `i`. -/
def rowsOf (acct : ℕ) : ℕ → List TradeRow → List ℕ
  | _, [] => []
  | i, t :: ts => if t.account = acct then i :: rowsOf acct (i + 1) ts else rowsOf acct (i + 1) ts

theorem le_of_mem_rowsOf {acct : ℕ} :
    ∀ {ts : List TradeRow} {i j : ℕ}, j ∈ rowsOf acct i ts → i ≤ j := by
  intro ts
  induction ts with
  | nil => exact fun h => by cases h
  | cons t ts ih =>
    intro i j h
    rw [rowsOf] at h
    split_ifs at h
    · obtain rfl | h := List.mem_cons.mp h
      · exact le_rfl
      · exact (Nat.le_succ i).trans (ih h)
    · exact (Nat.le_succ i).trans (ih h)

/-- The rows of an account in increasing order. -/
theorem rowsOf_eq_filter (acct : ℕ) (ts : List TradeRow) : ∀ i : ℕ,
    rowsOf acct i ts = (List.range' i ts.length).filter fun j =>
      decide ((ts[j - i]?).map TradeRow.account = some acct) := by
  induction ts with
  | nil => exact fun i => rfl
  | cons t ts ih =>
    intro i
    rw [rowsOf, ih, List.length_cons, List.range'_succ, List.filter_cons]
    have hrest : (List.range' (i + 1) ts.length).filter (fun j =>
        decide ((ts[j - (i + 1)]?).map TradeRow.account = some acct)) =
        (List.range' (i + 1) ts.length).filter fun j =>
          decide (((t :: ts)[j - i]?).map TradeRow.account = some acct) := by
      refine List.filter_congr fun j hj => ?_
      have := List.mem_range'_1.mp hj
      rw [show j - i = (j - (i + 1)) + 1 by omega, List.getElem?_cons_succ]
    rw [hrest, Nat.sub_self]
    simp

/-- Linking again threads the rows of each account in increasing order. -/
theorem chain_relink : ∀ {ts ts' : List TradeRow} {i : ℕ} {as as' : List AccountRow},
    relink i ts as = .ok (ts', as') → (∀ a ∈ as, a.firstTrade = none) →
      ∀ (acct : ℕ) (a : AccountRow), as'[acct]? = some a →
        Chain (shifted i (ts'.map (·.next))) a.firstTrade (rowsOf acct i ts) := by
  intro ts
  induction ts with
  | nil =>
    intro ts' i as as' h hnone acct a ha
    obtain ⟨rfl, rfl⟩ := Prod.mk.inj (Except.ok.inj h)
    rw [hnone a (List.mem_of_getElem? ha)]
    exact .nil
  | cons t ts ih =>
    intro ts' i as as' h hnone acct a ha
    simp only [relink, bind, except_bind_eq_ok] at h
    obtain ⟨⟨ts₁, as₁⟩, hrec, h⟩ := h
    dsimp only at h
    split at h
    · cases h
    · rename_i b hb
      obtain ⟨rfl, rfl⟩ := Prod.mk.inj (Except.ok.inj h)
      have hlater : ∀ {acct' : ℕ}, i ∉ rowsOf acct' (i + 1) ts := fun hmem =>
        absurd (le_of_mem_rowsOf hmem) (by omega)
      rw [List.map_cons, shifted_cons, rowsOf]
      by_cases hown : t.account = acct
      · subst hown
        rw [if_pos rfl]
        rw [List.getElem?_set_self (List.getElem?_eq_some_iff.mp hb).1] at ha
        obtain rfl := Option.some.inj ha
        refine .cons (Function.update_self ..) ?_
        exact (ih hrec hnone _ b hb).update hlater _
      · rw [if_neg hown]
        rw [List.getElem?_set_ne hown] at ha
        exact (ih hrec hnone acct a ha).update hlater _

/-- Linking again does not look at the links there were. -/
theorem relink_congr : ∀ {ts us : List TradeRow} (i : ℕ) (as : List AccountRow),
    ts.map TradeRow.unlinked = us.map TradeRow.unlinked → relink i ts as = relink i us as := by
  intro ts
  induction ts with
  | nil =>
    intro us i as h
    obtain rfl : us = [] := List.map_eq_nil_iff.mp h.symm
    rfl
  | cons t ts ih =>
    intro us i as h
    obtain ⟨u, us, rfl, hu, hus⟩ := List.map_eq_cons_iff.mp h.symm
    have hrec := ih (i + 1) as hus.symm
    have ht : t = { u with next := t.next } :=
      congrArg (fun r : TradeRow => { r with next := t.next }) hu.symm
    rw [ht]
    simp only [relink, hrec]

/-- Linking again finds a row for the account of every trade. -/
theorem exists_relink : ∀ {ts : List TradeRow} {i : ℕ} {as : List AccountRow},
    (∀ t ∈ ts, t.account < as.length) → ∃ ts' as', relink i ts as = .ok (ts', as') := by
  intro ts
  induction ts with
  | nil => exact fun _ => ⟨_, _, rfl⟩
  | cons t ts ih =>
    intro i as h
    obtain ⟨ts₁, as₁, hrec⟩ := ih (i := i + 1) fun r hr => h r (List.mem_cons_of_mem _ hr)
    obtain ⟨-, hacc, -⟩ := relink_rows (P := fun _ => True) hrec (fun _ _ => trivial)
      fun _ _ _ => trivial
    have hlen : as₁.length = as.length := by simpa using congrArg List.length hacc
    obtain ⟨a, ha⟩ : ∃ a, as₁[t.account]? = some a :=
      ⟨_, List.getElem?_eq_getElem (hlen ▸ h t List.mem_cons_self)⟩
    refine ⟨{ t with next := a.firstTrade } :: ts₁,
      as₁.set t.account { a with firstTrade := some i }, ?_⟩
    simp only [relink, hrec, bind, Except.bind, ha]

/-! ### The result -/

/-- The trade table is within its capacity, and its index was made for that capacity. -/
structure PartitionState.TradesSized (s : PartitionState) : Prop where
  le : s.trades.length ≤ s.cap.trades.toNat
  slots : slotCount s.cap.trades.toNat = some s.tradeIndex.slots.length

/-- What a compaction that closed `n` trades has done. -/
structure Compacted (s : PartitionState) (n : ℕ) (s' : PartitionState) : Prop where
  survivors : s'.trades.map TradeRow.unlinked =
    (survivors s.window s.trades).map TradeRow.unlinked
  removed : n + s'.trades.length = s.trades.length
  same : n = 0 → s' = s
  lists : 0 < n → ∀ acct a, s'.accounts[acct]? = some a →
    Chain (linkIn s'.trades) a.firstTrade ((List.range s'.trades.length).filter fun i =>
      decide (ownerIn s'.trades i = some acct))
  index : 0 < n → ∀ id i, s'.tradeIndex.find id = some i ↔ s'.tradeKeys[i]? = some id
  rest : s'.accounts.map AccountRow.unlinked = s.accounts.map AccountRow.unlinked ∧
    s' = { s with accounts := s'.accounts, trades := s'.trades, tradeIndex := s'.tradeIndex }

section Result

variable {s : PartitionState}

/-- What the two cursors leave. -/
theorem compacted_rows (s : PartitionState) :
    ∃ x, compactRows s.window s.trades.length 0 ⟨0, 0, s.trades⟩ = .ok x ∧
      (x.rows.take x.destino).map TradeRow.unlinked =
        (survivors s.window s.trades).map TradeRow.unlinked ∧
      x.destino + x.baixados = s.trades.length ∧ (x.baixados = 0 → x.rows = s.trades) ∧
      x.destino ≤ x.rows.length := by
  obtain ⟨x, hx, h⟩ := compactRows_spec (n := s.trades.length) (i := 0) (x := ⟨0, 0, s.trades⟩)
    (w := s.window) ⟨rfl, Nat.zero_le _, rfl, rfl, rfl, fun _ => rfl⟩ (Nat.zero_add _)
  have hkept := h.kept
  rw [List.take_length] at hkept
  exact ⟨x, hx, hkept, h.cursors, h.same, h.length ▸ (Nat.le_add_right _ _).trans h.cursors.le⟩

theorem length_survivors_of_take {x : Compacting} {w : SettlementWindow} {ts : List TradeRow}
    (h : (x.rows.take x.destino).map TradeRow.unlinked = (survivors w ts).map TradeRow.unlinked)
    (hle : x.destino ≤ x.rows.length) : x.destino = (survivors w ts).length := by
  have hlen := congrArg List.length h
  rwa [List.length_map, List.length_map, List.length_take, Nat.min_eq_left hle] at hlen

/-- Nothing is closed exactly when every trade survives. -/
theorem any_closes_iff (w : SettlementWindow) (ts : List TradeRow) :
    ts.any (closes w) = true ↔ (survivors w ts).length < ts.length := by
  constructor
  · intro h
    obtain ⟨t, ht, hclose⟩ := List.any_eq_true.mp h
    exact List.length_filter_lt_length_iff_exists.mpr ⟨t, ht, by simp [hclose]⟩
  · intro h
    obtain ⟨t, ht, hclose⟩ := List.length_filter_lt_length_iff_exists.mp h
    exact List.any_eq_true.mpr ⟨t, ht, by simpa using hclose⟩

/-- The compaction in place is the filter that opening a day applies, with the number of trades
that were closed. -/
theorem closeAndCompactInPlace_eq (s : PartitionState) : closeAndCompactInPlace s =
    s.closeAndCompactTrades.map fun s' =>
      (s.trades.length - (survivors s.window s.trades).length, s') := by
  obtain ⟨x, hx, hkept, hcur, hsame, hle⟩ := compacted_rows s
  have hdest := length_survivors_of_take hkept hle
  unfold closeAndCompactInPlace closeAndCompactTrades
  rw [hx]
  change (if x.baixados = 0 then _ else _) = _
  by_cases h0 : x.baixados = 0
  · have hno : ¬ s.trades.any (closes s.window) = true := by
      rw [any_closes_iff]
      omega
    rw [if_pos h0, if_neg hno, hsame h0, show s.trades.length - _ = 0 by omega]
    rfl
  · have hany : s.trades.any (closes s.window) = true := by
      rw [any_closes_iff]
      omega
    rw [if_neg h0, if_pos hany, relink_congr 0 _ hkept,
      show s.trades.length - (survivors s.window s.trades).length = x.baixados by omega]
    change (relink 0 (survivors s.window s.trades) _ >>= _) =
      (relink 0 (survivors s.window s.trades) _ >>= _ : Exec _).map _
    cases relink 0 (survivors s.window s.trades)
      (s.accounts.map fun a => { a with firstTrade := none }) with
    | error d => rfl
    | ok x => rfl

/-- **Compaction.** With unique trade ids, and accounts for every trade, the call returns; it keeps
the trades that are not both settled and outside the window, in order and whole, and returns the
number of the others. Where that is positive, the list of each account holds its trades in the
order of their rows and the index answers them; where it is zero nothing has changed. -/
theorem compacted_of_unique (hids : s.tradeKeys.Nodup)
    (haccounts : ∀ t ∈ s.trades, t.account < s.accounts.length) (hsized : s.TradesSized) :
    ∃ n s', closeAndCompactInPlace s = .ok (n, s') ∧ Compacted s n s' := by
  have hsub : (survivors s.window s.trades).Sublist s.trades := List.filter_sublist
  have hlen := hsub.length_le
  obtain ⟨s', hs'⟩ : ∃ s', s.closeAndCompactTrades = .ok s' := by
    unfold closeAndCompactTrades
    split_ifs
    · obtain ⟨ts', as', hrel⟩ := @exists_relink (survivors s.window s.trades) 0
        (s.accounts.map fun a => { a with firstTrade := none }) fun t ht => by
          rw [List.length_map]
          exact haccounts t (hsub.subset ht)
      change ∃ s', (relink 0 (survivors s.window s.trades) _ >>= _) = Except.ok s'
      rw [hrel]
      exact ⟨_, rfl⟩
    · exact ⟨s, rfl⟩
  refine ⟨_, s', by rw [closeAndCompactInPlace_eq, hs']; rfl, ?_⟩
  obtain ⟨hacc, htr, ti, hrest⟩ := closeAndCompact_rows hs'
  have htr : s'.trades.map TradeRow.unlinked =
      (survivors s.window s.trades).map TradeRow.unlinked := htr
  have hcount : s'.trades.length = (survivors s.window s.trades).length := by
    simpa using congrArg List.length htr
  -- with something closed, the state was put together again
  have hclosed : 0 < s.trades.length - (survivors s.window s.trades).length →
      ∃ ts' as', relink 0 (survivors s.window s.trades)
        (s.accounts.map fun a => { a with firstTrade := none }) = .ok (ts', as') ∧
        s' = { s with
          trades := ts'
          accounts := as'
          tradeIndex := insertKeysUnchecked s.tradeIndex.clear 0 (ts'.map (·.tradeId)) } := by
    intro hpos
    unfold closeAndCompactTrades at hs'
    rw [if_pos ((any_closes_iff _ _).mpr (by omega))] at hs'
    obtain ⟨⟨ts', as'⟩, hrel, h⟩ := except_bind_eq_ok.mp hs'
    exact ⟨ts', as', hrel, (Except.ok.inj h).symm⟩
  refine ⟨htr, by omega, fun h0 => ?_, fun hpos acct a ha => ?_, fun hpos => ?_, hacc, ?_⟩
  · unfold closeAndCompactTrades at hs'
    rw [if_neg (by rw [any_closes_iff]; omega)] at hs'
    exact (Except.ok.inj hs').symm
  · obtain ⟨ts', as', hrel, rfl⟩ := hclosed hpos
    have hchain := chain_relink hrel (fun a ha => by
      obtain ⟨b, -, rfl⟩ := List.mem_map.mp ha
      rfl) acct a ha
    have hlinks : shifted 0 (ts'.map (·.next)) = linkIn ts' := by
      funext j
      rw [shifted, if_neg (Nat.not_lt_zero j), Nat.sub_zero]
      rfl
    have howner : ts'.map (·.account) = (survivors s.window s.trades).map (·.account) :=
      map_of_unlinkedTrades _ (fun _ => rfl) htr
    rw [hlinks, rowsOf_eq_filter, ← List.range_eq_range', ← hcount] at hchain
    refine cast (congrArg _ (List.filter_congr fun j _ => ?_)) hchain
    rw [Nat.sub_zero, ← List.getElem?_map, ← howner]
    rfl
  · obtain ⟨ts', as', hrel, rfl⟩ := hclosed hpos
    have hkeys : ts'.map (·.tradeId) = (survivors s.window s.trades).map (·.tradeId) :=
      map_of_unlinkedTrades _ (fun _ => rfl) htr
    have hslots := slotCount_eq_some hsized.slots
    have hle := hsized.le
    obtain ⟨t', -, hidx, -, hun⟩ := @DenseIndex.indexes_insertKeys _ hslots.2.2
      (ts'.map (·.tradeId)) (hkeys ▸ hids.sublist (hsub.map _)) (by
        rw [hkeys, List.length_map]
        omega)
    intro id i
    rw [DenseIndex.clear, hun]
    exact hidx.find id i
  · rw [hrest]

end Result

/-- A trade that was settled on a day that has left the window, and one still to be allocated. -/
def settledAndStanding : List TradeRow :=
  [⟨1, 0, 0, 0, 1, 1, 0, 20260901, 1, TradeState.settled.code, none⟩,
    ⟨2, 0, 0, 0, 1, 1, 0, 20260904, 1, TradeState.executed.code, some 0⟩]

theorem compacted_of_unique_settled :
    ∃ s₀ arena₀, blank.init ⟨2 ^ 16, 0, false, false⟩ 1 ⟨2, 2, 2, 2, 2, 2, 2, 2, 60⟩ =
        .ok (true, s₀, arena₀) ∧
      ∃ s', closeAndCompactInPlace { s₀ with
          accounts := [.cleared 1], trades := settledAndStanding } = .ok (1, s') ∧
        Compacted { s₀ with accounts := [.cleared 1], trades := settledAndStanding } 1 s' := by
  have hrun : ∃ s₀ arena₀, blank.init ⟨2 ^ 16, 0, false, false⟩ 1
      ⟨2, 2, 2, 2, 2, 2, 2, 2, 60⟩ = .ok (true, s₀, arena₀) ∧ s₀.cap.trades = 2 ∧
      slotCount 2 = some s₀.tradeIndex.slots.length ∧
      ∃ s', closeAndCompactInPlace { s₀ with
        accounts := [.cleared 1], trades := settledAndStanding } = .ok (1, s') :=
    ⟨_, _, rfl, rfl, rfl, _, rfl⟩
  obtain ⟨s₀, arena₀, hinit, hcap, hslots, s', hs'⟩ := hrun
  obtain ⟨n, t, hn, hcompacted⟩ := compacted_of_unique
    (s := { s₀ with accounts := [.cleared 1], trades := settledAndStanding })
    (by simp [tradeKeys, settledAndStanding]) (by simp [settledAndStanding])
    ⟨by simp [settledAndStanding, hcap], by simpa [hcap] using hslots⟩
  obtain ⟨rfl, rfl⟩ := Prod.mk.inj (Except.ok.inj (hs'.symm.trans hn))
  exact ⟨s₀, arena₀, hinit, s', hs', hcompacted⟩

end MotorRv
