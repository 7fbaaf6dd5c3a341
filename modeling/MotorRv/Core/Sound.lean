import MotorRv.Core.Apply
import MotorRv.Core.Initialisation

/-!
# What every state keeps

`Sound` collects what holds of a state from its initialisation on, whatever events arrive: each
index answers exactly the rows of its table, no table is above its capacity, row numbers fit in 32
bits, and the idempotency sets are well-formed tables. Every part of a handler keeps it, and so
does `apply`, whatever the status.

The invariant has one field for each table, all of the same form (`TableSound`): the keys of the
rows are distinct, the index over them answers each key with its row and was sized for the capacity,
and there are no more rows than that. That the tables have the capacities which the state names is
part of it, since a refused `init` can leave them apart.

Interning is specified here as well, by the three answers it can give (`internAccount_cases` and its
siblings): the table is full, whatever the key; the key has a row; or it gets the next one. The
lists of the trades are not part of this invariant, because an allocation can break them.
-/

namespace MotorRv

open Lib

/-! ### Indexes from keys -/

namespace DenseIndex

/-- Inserting new keys with the next row numbers indexes the longer list. -/
theorem Indexes.insertKeys {keys : List UInt64} : ∀ {ks : List UInt64} {t : DenseIndex},
    Indexes t keys → (keys ++ ks).Nodup → (keys ++ ks).length ≤ loadLimit t.slots.length →
      ∃ t', PartitionState.insertKeys t keys.length ks = (true, t') ∧ Indexes t' (keys ++ ks) ∧
        t'.slots.length = t.slots.length ∧
        PartitionState.insertKeysUnchecked t keys.length ks = t' := by
  intro ks
  induction ks generalizing keys with
  | nil =>
    intro t h _ _
    exact ⟨t, rfl, by simpa using h, rfl, rfl⟩
  | cons k ks ih =>
    intro t h hnd hle
    have hk : k ∉ keys := fun hmem => by
      have := List.nodup_append.mp hnd
      exact this.2.2 k hmem k (by simp) rfl
    obtain ⟨t₁, h₁, hidx, hslots⟩ := h.insert_added hk (by simp at hle; omega)
    have happ : keys ++ k :: ks = (keys ++ [k]) ++ ks := by simp
    obtain ⟨t', ht', hidx', hslots', hun⟩ := ih hidx (happ ▸ hnd)
      (by rw [hslots, ← happ]; exact hle)
    rw [List.length_append, List.length_singleton] at ht' hun
    refine ⟨t', ?_, happ ▸ hidx', hslots'.trans hslots, ?_⟩
    · simp only [PartitionState.insertKeys, h₁, ht']
    · simp only [PartitionState.insertKeysUnchecked, h₁, hun]

/-- An index built from an empty one. -/
theorem indexes_insertKeys {n : ℕ} (hn : loadLimit n < n) {ks : List UInt64} (hnd : ks.Nodup)
    (hle : ks.length ≤ loadLimit n) :
    ∃ t', PartitionState.insertKeys (OpenTable.empty n) 0 ks = (true, t') ∧ Indexes t' ks ∧
      t'.slots.length = n ∧
      PartitionState.insertKeysUnchecked (OpenTable.empty n) 0 ks = t' := by
  have hlen : (OpenTable.empty n : DenseIndex).slots.length = n := by simp [OpenTable.empty]
  have hnd' : ([] ++ ks).Nodup := hnd
  obtain ⟨t', h1, h2, h3, h4⟩ := (indexes_empty hn).insertKeys hnd' (by simpa [hlen] using hle)
  exact ⟨t', h1, by simpa using h2, h3.trans hlen, h4⟩

end DenseIndex

/-! ### The invariant -/

/-- A generation of an idempotency set, sized for `n` members. -/
structure PairIndex.Sound (n : ℕ) (t : PairIndex) : Prop where
  wf : OpenTable.WF PairIndex.home t
  slots : slotCount n = some t.slots.length
  size : t.size ≤ loadLimit t.slots.length
  rows : ∀ e ∈ t.entries, e.1.2 < 2 ^ 32

structure TwoGenSet.Sound (n : ℕ) (s : TwoGenSet) : Prop where
  gen0 : PairIndex.Sound n s.gen0
  gen1 : PairIndex.Sound n s.gen1

/-- A table, its capacity and its index. -/
structure TableSound (cap : UInt32) (keys : List UInt64) (t : DenseIndex) : Prop where
  index : DenseIndex.Indexes t keys
  slots : slotCount cap.toNat = some t.slots.length
  le : keys.length ≤ cap.toNat

/-- A link to a row is no `kNil`. -/
def LinkOk (l : Option ℕ) : Prop := ∀ n, l = some n → n < 2 ^ 32 - 1

namespace PartitionState

structure Sound (s : PartitionState) : Prop where
  tables : s.cap.tables = s.cap.toPartitionCapacity.forTables
  accounts : TableSound s.cap.accounts s.accountKeys s.accountIndex
  positions : TableSound s.cap.positions s.positionKeys s.positionIndex
  instruments : TableSound s.cap.instruments s.instrumentKeys s.instrumentIndex
  trades : TableSound s.cap.trades s.tradeKeys s.tradeIndex
  slotColumns : 3 * s.cap.positions.toNat < 2 ^ 32 ∧ 3 * s.cap.accounts.toNat < 2 ^ 32
  exceptions : s.exceptions.length = s.cap.tables.exceptions.toNat
  custodyRows : ∀ c ∈ s.custody, c.account < 2 ^ 32 ∧ c.instrument < 2 ^ 32
  accountRows : ∀ a ∈ s.accounts, LinkOk a.firstTrade
  tradeRows : ∀ t ∈ s.trades, t.account < 2 ^ 32 ∧ t.instrument < 2 ^ 32 ∧ LinkOk t.next
  actions : TwoGenSet.Sound s.cap.corporateActionsPerGen.toNat s.appliedActions
  income : TwoGenSet.Sound s.cap.corporateActionsPerGen.toNat s.appliedIncome

end PartitionState

/-! ### Tables -/

/-- A table without rows. -/
theorem TableSound.nil {cap : UInt32} {n : ℕ} (h : slotCount cap.toNat = some n) :
    TableSound cap [] (OpenTable.empty n) where
  index := DenseIndex.indexes_empty (slotCount_eq_some h).2.2
  slots := by simpa [OpenTable.empty] using h
  le := by simp

/-- The three answers of an index to a key: the row it has, the next row, or no room. -/
theorem TableSound.insert {cap : UInt32} {keys : List UInt64} {t : DenseIndex}
    (h : TableSound cap keys t) (hlt : keys.length < cap.toNat) (k : UInt64) :
    (∃ i, keys[i]? = some k ∧ t.insertOrGet k keys.length = (.present i, t)) ∨
      (k ∉ keys ∧ ∃ t', t.insertOrGet k keys.length = (.added, t') ∧
        TableSound cap (keys ++ [k]) t') := by
  by_cases hk : k ∈ keys
  · obtain ⟨i, hi⟩ := List.mem_iff_getElem?.mp hk
    exact .inl ⟨i, hi, h.index.insert_present hi _⟩
  · have hroom := (slotCount_eq_some h.slots).2.1
    obtain ⟨t', h₁, hidx, hslots⟩ := h.index.insert_added hk (by omega)
    refine .inr ⟨hk, t', h₁, hidx, by rw [hslots]; exact h.slots, ?_⟩
    rw [List.length_append, List.length_singleton]
    omega

/-- The index of other rows with the same keys as before. -/
theorem TableSound.of_rebuilt {cap : UInt32} {keys : List UInt64} {t : DenseIndex}
    (h : TableSound cap keys t) {ks : List UInt64} (hnd : ks.Nodup)
    (hle : ks.length ≤ keys.length) :
    TableSound cap ks (PartitionState.insertKeysUnchecked t.clear 0 ks) := by
  have hs := slotCount_eq_some h.slots
  have hle' := h.le
  obtain ⟨t', -, hidx, hslots, hun⟩ := DenseIndex.indexes_insertKeys hs.2.2 hnd (by omega)
  rw [DenseIndex.clear, hun]
  exact ⟨hidx, by rw [hslots]; exact h.slots, by omega⟩

/-! ### Idempotency sets -/

/-- A generation without members. -/
theorem PairIndex.Sound.empty {n slots : ℕ} (h : slotCount n = some slots) :
    PairIndex.Sound n (OpenTable.empty slots) where
  wf := OpenTable.wf_empty slots
  slots := by simpa [OpenTable.empty] using h
  size := by simp [OpenTable.empty]
  rows := by simp

/-- A new pair with a row number that fits is added while there is room. -/
theorem PairIndex.Sound.insert {n : ℕ} {t : PairIndex} (h : PairIndex.Sound n t) (hi : UInt64)
    {lo : ℕ} (hlo : lo < 2 ^ 32) : PairIndex.Sound n (PairIndex.insert t hi lo).2 := by
  have hs := slotCount_eq_some h.slots
  unfold PairIndex.insert
  rcases hf : OpenTable.find PairIndex.home t (hi, lo) with _ | v
  · rcases Nat.lt_or_ge t.size (loadLimit t.slots.length) with hlt | hge
    · obtain ⟨t', ht', hwf, hsize, hlen, hperm⟩ :=
        OpenTable.insert_added h.wf hs.2.2 hlt hf ()
      rw [ht']
      refine ⟨hwf, by rw [hlen]; exact h.slots, by rw [hsize, hlen]; omega, fun e he => ?_⟩
      rcases List.mem_cons.mp (hperm.mem_iff.mp he) with rfl | he
      · exact hlo
      · exact h.rows e he
    · rw [OpenTable.insert_full hge hf]
      exact h
  · rw [OpenTable.insert_present h.wf hf]
    exact h

/-- Both generations of a sound set are sound. -/
theorem TwoGenSet.Sound.gen {n : ℕ} {s : TwoGenSet} (h : s.Sound n) (g : Bool) :
    PairIndex.Sound n (s.gen g) := by
  cases g with
  | false => exact h.gen0
  | true => exact h.gen1

/-- A generation may be replaced by a sound one. -/
theorem TwoGenSet.Sound.setGen {n : ℕ} {s : TwoGenSet} (h : s.Sound n) (g : Bool) {t : PairIndex}
    (ht : PairIndex.Sound n t) : (s.setGen g t).Sound n := by
  cases g with
  | false => exact ⟨ht, h.gen1⟩
  | true => exact ⟨h.gen0, ht⟩

/-- A key of an id and a row number may be inserted. -/
theorem TwoGenSet.Sound.insert {n : ℕ} {s : TwoGenSet} (h : s.Sound n) (hi : UInt64) {lo : ℕ}
    (hlo : lo < 2 ^ 32) : (s.insert hi lo).2.Sound n := by
  unfold TwoGenSet.insert
  split_ifs
  · exact h
  · exact h.setGen _ ((h.gen _).insert hi hlo)

/-- A rotation clears the older generation and makes it the current one. -/
theorem TwoGenSet.Sound.maybeRotate {n : ℕ} {s : TwoGenSet} (h : s.Sound n) (today : DateYmd)
    (windowDays : Int32) : (s.maybeRotate today windowDays).Sound n := by
  unfold TwoGenSet.maybeRotate
  split_ifs
  · exact ⟨h.gen0, h.gen1⟩
  · exact h
  · have hset := h.setGen (!s.current) (PairIndex.Sound.empty (h.gen !s.current).slots)
    exact ⟨hset.gen0, hset.gen1⟩

/-! ### Initialisation and interning -/

namespace PartitionState

variable {s : PartitionState}

/-- The state that `init` leaves in a default-constructed one. -/
theorem sound_init {arena arena' : Arena} {pid : UInt16} {c : PartitionCapacity}
    (h : blank.init arena pid c = .ok (true, s, arena')) : s.Sound := by
  obtain ⟨hp3, ha3, ⟨na, np, ni, nt, ng⟩, hslots, rfl⟩ := init_eq_ok h
  obtain ⟨ha, hp, hi, ht, hg⟩ := indexSlots_eq_some.mp hslots
  have hset : TwoGenSet.Sound c.corporateActionsPerGen.toNat (emptied blankSet ng) :=
    ⟨.empty hg, .empty hg⟩
  exact ⟨rfl, .nil ha, .nil hp, .nil hi, .nil ht, ⟨hp3, ha3⟩, List.length_replicate,
    by simp [initialised], by simp [initialised], by simp [initialised, blank], hset, hset⟩

/-! The capacity of a table is the one asked for. -/

theorem Sound.table_accounts (h : s.Sound) : s.cap.tables.accounts = s.cap.accounts :=
  congrArg (·.accounts) h.tables

theorem Sound.table_instruments (h : s.Sound) : s.cap.tables.instruments = s.cap.instruments :=
  congrArg (·.instruments) h.tables

theorem Sound.table_positions (h : s.Sound) : s.cap.tables.positions = s.cap.positions :=
  congrArg (·.positions) h.tables

theorem Sound.table_trades (h : s.Sound) : s.cap.tables.trades = s.cap.trades :=
  congrArg (·.trades) h.tables

theorem Sound.table_exceptions (h : s.Sound) : s.cap.tables.exceptions = s.cap.exceptions :=
  congrArg (·.exceptions) h.tables

/-- A sound state has tables of the capacities that it names. -/
theorem Sound.forTables (h : s.Sound) : { s.cap.toPartitionCapacity with
    tables := s.cap.toPartitionCapacity.forTables } = s.cap := by
  rw [← h.tables]

/-- No table has more rows than its capacity. -/
theorem Sound.lengths (h : s.Sound) :
    s.custody.length ≤ s.cap.positions.toNat ∧ s.accounts.length ≤ s.cap.accounts.toNat ∧
      s.instruments.length ≤ s.cap.instruments.toNat ∧ s.trades.length ≤ s.cap.trades.toNat := by
  refine ⟨?_, ?_, ?_, ?_⟩
  · simpa [positionKeys] using h.positions.le
  · simpa [accountKeys] using h.accounts.le
  · simpa [instrumentKeys] using h.instruments.le
  · simpa [tradeKeys] using h.trades.le

/-- Interning an account: the table is full, the row is known, or it is the next one. -/
theorem internAccount_cases (h : s.Sound) (doc : UInt64) :
    s.internAccount doc = (none, s) ∨
      (∃ i, s.accountKeys[i]? = some doc ∧ s.internAccount doc = (some i, s)) ∨
      (doc ∉ s.accountKeys ∧ s.accounts.length < s.cap.accounts.toNat ∧ ∃ t,
        s.internAccount doc = (some s.accounts.length,
          { s with accountIndex := t, accounts := s.accounts ++ [AccountRow.cleared doc] }) ∧
        TableSound s.cap.accounts (s.accountKeys ++ [doc]) t) := by
  have hlen : s.accountKeys.length = s.accounts.length := by simp [accountKeys]
  unfold internAccount
  rw [h.table_accounts]
  split_ifs with hfull
  · exact .inl rfl
  · obtain ⟨i, hi, hins⟩ | ⟨hnew, t, hins, ht⟩ := h.accounts.insert (by omega) doc
    · rw [hlen] at hins
      exact .inr (.inl ⟨i, hi, by rw [hins]⟩)
    · rw [hlen] at hins
      exact .inr (.inr ⟨hnew, by omega, t, by rw [hins], ht⟩)

/-- Interning an instrument: refused, found, or added behind the others. -/
theorem internInstrument_cases (h : s.Sound) (externalId : UInt32) :
    s.internInstrument externalId = (none, s) ∨
      (∃ i, s.instrumentKeys[i]? = some (instrumentKey externalId) ∧
        s.internInstrument externalId = (some i, s)) ∨
      (instrumentKey externalId ∉ s.instrumentKeys ∧
        s.instruments.length < s.cap.instruments.toNat ∧ ∃ t,
        s.internInstrument externalId = (some s.instruments.length,
          { s with
            instrumentIndex := t
            instruments := s.instruments ++ [InstrumentRow.cleared externalId] }) ∧
        TableSound s.cap.instruments (s.instrumentKeys ++ [instrumentKey externalId]) t) := by
  have hlen : s.instrumentKeys.length = s.instruments.length := by simp [instrumentKeys]
  unfold internInstrument
  rw [h.table_instruments]
  split_ifs with hfull
  · exact .inl rfl
  · obtain ⟨i, hi, hins⟩ | ⟨hnew, t, hins, ht⟩ :=
      h.instruments.insert (by omega) (instrumentKey externalId)
    · rw [hlen] at hins
      exact .inr (.inl ⟨i, hi, by rw [hins]⟩)
    · rw [hlen] at hins
      exact .inr (.inr ⟨hnew, by omega, t, by rw [hins], ht⟩)

/-- Interning a position: refused, found, or added behind the others. -/
theorem internPosition_cases (h : s.Sound) (account instrument : ℕ) :
    s.internPosition account instrument = (none, s) ∨
      (∃ i, s.positionKeys[i]? = some (positionKey account instrument) ∧
        s.internPosition account instrument = (some i, s)) ∨
      (positionKey account instrument ∉ s.positionKeys ∧
        s.custody.length < s.cap.positions.toNat ∧ ∃ t,
        s.internPosition account instrument = (some s.custody.length,
          { s with
            positionIndex := t
            custody := s.custody ++ [CustodyRow.cleared account instrument] }) ∧
        TableSound s.cap.positions (s.positionKeys ++ [positionKey account instrument]) t) := by
  have hlen : s.positionKeys.length = s.custody.length := by simp [positionKeys]
  unfold internPosition
  rw [h.table_positions]
  split_ifs with hfull
  · exact .inl rfl
  · obtain ⟨i, hi, hins⟩ | ⟨hnew, t, hins, ht⟩ :=
      h.positions.insert (by omega) (positionKey account instrument)
    · rw [hlen] at hins
      exact .inr (.inl ⟨i, hi, by rw [hins]⟩)
    · rw [hlen] at hins
      exact .inr (.inr ⟨hnew, by omega, t, by rw [hins], ht⟩)

/-- A full table of positions refuses every position, the known ones too. -/
theorem internPosition_full (h : s.Sound) (hfull : s.cap.positions.toNat ≤ s.custody.length)
    (account instrument : ℕ) : s.internPosition account instrument = (none, s) := by
  rw [internPosition, h.table_positions, if_pos hfull]

/-- A row number that a table answers fits in 32 bits. -/
theorem lt_of_key {cap : UInt32} {keys : List UInt64} {t : DenseIndex}
    (h : TableSound cap keys t) {i : ℕ} {k : UInt64} (hi : keys[i]? = some k) : i < 2 ^ 32 - 1 := by
  have := h.le
  have := (List.getElem?_eq_some_iff.mp hi).1
  have := cap.toNat_lt
  omega

/-- Interning an account keeps a state sound. -/
theorem Sound.internAccount (h : s.Sound) (doc : UInt64) :
    (s.internAccount doc).2.Sound ∧ ∀ i, (s.internAccount doc).1 = some i → i < 2 ^ 32 := by
  obtain heq | ⟨i, hi, heq⟩ | ⟨-, hlt, t, heq, ht⟩ := internAccount_cases h doc
  · rw [heq]
    exact ⟨h, by simp⟩
  · rw [heq]
    refine ⟨h, fun j hj => ?_⟩
    obtain rfl := Option.some.inj hj
    have := lt_of_key h.accounts hi
    omega
  · rw [heq]
    refine ⟨{ h with accounts := ?_, accountRows := ?_ }, fun j hj => ?_⟩
    · simpa [accountKeys, AccountRow.cleared] using ht
    · intro a ha
      rcases List.mem_append.mp ha with ha | ha
      · exact h.accountRows a ha
      · obtain rfl := List.mem_singleton.mp ha
        exact fun n hn => absurd hn (by simp [AccountRow.cleared])
    · obtain rfl := Option.some.inj hj
      have := s.cap.accounts.toNat_lt
      omega

/-- Interning an instrument keeps a state sound. -/
theorem Sound.internInstrument (h : s.Sound) (externalId : UInt32) :
    (s.internInstrument externalId).2.Sound ∧
      ∀ i, (s.internInstrument externalId).1 = some i → i < 2 ^ 32 := by
  obtain heq | ⟨i, hi, heq⟩ | ⟨-, hlt, t, heq, ht⟩ := internInstrument_cases h externalId
  · rw [heq]
    exact ⟨h, by simp⟩
  · rw [heq]
    refine ⟨h, fun j hj => ?_⟩
    obtain rfl := Option.some.inj hj
    have := lt_of_key h.instruments hi
    omega
  · rw [heq]
    refine ⟨{ h with instruments := ?_ }, fun j hj => ?_⟩
    · simpa [instrumentKeys, InstrumentRow.cleared] using ht
    · obtain rfl := Option.some.inj hj
      have := s.cap.instruments.toNat_lt
      omega

/-- Interning a position keeps a state sound, for rows of 32 bits. -/
theorem Sound.internPosition (h : s.Sound) {account instrument : ℕ} (ha : account < 2 ^ 32)
    (hi : instrument < 2 ^ 32) : (s.internPosition account instrument).2.Sound := by
  obtain heq | ⟨i, -, heq⟩ | ⟨-, -, t, heq, ht⟩ := internPosition_cases h account instrument
  · rw [heq]
    exact h
  · rw [heq]
    exact h
  · rw [heq]
    refine { h with positions := ?_, custodyRows := ?_ }
    · simpa [positionKeys, CustodyRow.cleared] using ht
    · intro c hc
      rcases List.mem_append.mp hc with hc | hc
      · exact h.custodyRows c hc
      · obtain rfl := List.mem_singleton.mp hc
        exact ⟨ha, hi⟩

/-! ### Rows -/

end PartitionState

/-- A row is read where there is one. -/
theorem rowAt_eq_ok {α : Type} {rows : List α} {i : ℕ} {r : α} :
    rowAt rows i = .ok r ↔ rows[i]? = some r := by
  unfold rowAt
  cases rows[i]? with
  | none => simp
  | some r' => simp

theorem modRow_eq_ok {α : Type} {rows rows' : List α} {i : ℕ} {f : α → Exec α} :
    modRow rows i f = .ok rows' ↔
      ∃ r r', rows[i]? = some r ∧ f r = .ok r' ∧ rows' = rows.set i r' := by
  unfold modRow
  cases h : rowAt rows i with
  | error e =>
    have : rows[i]? = none := by
      unfold rowAt at h
      cases hr : rows[i]? with
      | none => rfl
      | some r => simp [hr] at h
    simp [this, bind, Except.bind]
  | ok r =>
    have hr := rowAt_eq_ok.mp h
    cases hf : f r with
    | error e => simp [hr, hf, bind, Except.bind]
    | ok r' => simp [hr, hf, bind, Except.bind, eq_comm]

/-- A property of each row, kept by a change of one row. -/
theorem forall_mem_set {α : Type} {P : α → Prop} {rows : List α} {i : ℕ} {r' : α}
    (h : ∀ r ∈ rows, P r) (hr : P r') : ∀ r ∈ rows.set i r', P r := by
  intro r hmem
  rcases List.mem_or_eq_of_mem_set hmem with hm | rfl
  · exact h r hm
  · exact hr

/-- A key of each row, kept by a change of one row. -/
theorem map_set_of_eq {α β : Type} {key : α → β} {rows : List α} {i : ℕ} {r r' : α}
    (hr : rows[i]? = some r) (hkey : key r' = key r) :
    (rows.set i r').map key = rows.map key := by
  rw [List.map_set, hkey]
  obtain ⟨hlt, rfl⟩ := List.getElem?_eq_some_iff.mp hr
  rw [← List.getElem_map key (h := by simpa using hlt)]
  exact List.set_getElem_self _

/-- Neither does setting two rows. -/
theorem map_set_set_of_eq {α β : Type} {key : α → β} {rows : List α} {i j : ℕ} {r r' q q' : α}
    (hij : i ≠ j) (hr : rows[i]? = some r) (hr' : key r' = key r) (hq : rows[j]? = some q)
    (hq' : key q' = key q) : ((rows.set i r').set j q').map key = rows.map key := by
  have hq₁ : (rows.set i r')[j]? = some q := by
    rw [List.getElem?_set_ne hij]
    exact hq
  exact (map_set_of_eq hq₁ hq').trans (map_set_of_eq hr hr')

end MotorRv
