import MotorRv.Codec.Encode
import MotorRv.Core.Idempotency

/-!
# Interning

An account, an instrument or a position gets the next row of its table when it first appears. The
row number is meant to stand for it from then on. What interning answers depends on the capacity
of the table before anything else: in a table that is exactly full it refuses the identities that
have a row as well.

An event about known accounts and instruments interns what it names again. It is refused for want
of room where a table is full, and where an allocation takes the last row of the positions before
it looks up the other position, which has one.

The three tables are treated as one: `InternTable` gives the keys that may be asked for, the
capacity and the rows, and `Lawful` what a sound state makes of interning, with the three ways to
answer. `Lawful.stable_iff` is the condition for one table; a table that is exactly full refuses
every key, known or not, because the capacity is compared before the index is asked.

For events the question is whether `ArenaExhausted` has another reason (`Event.RunsOut`): a trade, a
key, an output, or a position that is new and needs a row. `Spacious` and `Lasts` follow the
handlers and keep the reasons apart. `internsStably_iff` joins both sides for every state of a
session, with the one exception of an allocation that takes the last position.
-/

namespace MotorRv

open Lib PartitionState Apply

/-! ### Tables -/

/-- A table that interns keys: the keys it may be asked for, its capacity, and the keys of its rows
in the order in which they appeared. -/
structure InternTable (κ : Type) where
  dom : κ → Prop
  cap : PartitionState → ℕ
  keys : PartitionState → List κ
  intern : PartitionState → κ → Option ℕ × PartitionState

namespace InternTable

def accounts : InternTable UInt64 where
  dom _ := True
  cap s := s.cap.accounts.toNat
  keys s := s.accountKeys
  intern s doc := s.internAccount doc

def instruments : InternTable UInt32 where
  dom _ := True
  cap s := s.cap.instruments.toNat
  keys s := s.instruments.map InstrumentRow.externalId
  intern s id := s.internInstrument id

/-- Accounts and instruments are row numbers of 32 bits. -/
def positions : InternTable (ℕ × ℕ) where
  dom p := p.1 < 2 ^ 32 ∧ p.2 < 2 ^ 32
  cap s := s.cap.positions.toNat
  keys s := s.custody.map fun c => (c.account, c.instrument)
  intern s p := s.internPosition p.1 p.2

variable {κ : Type} {T : InternTable κ} {s s' : PartitionState}

/-- No row is taken, or one is free. -/
def Open (T : InternTable κ) (s : PartitionState) : Prop :=
  T.keys s = [] ∨ (T.keys s).length < T.cap s

/-- Interning is stable in `s`: a key that had a row after one of the steps is answered with it and
nothing changes; a key has one row; a new key gets the next one, and is refused in a full table
only. -/
structure Stable (T : InternTable κ) (steps : List Step) (s : PartitionState) : Prop where
  known : ∀ x ∈ steps, ∀ i k, (T.keys x.after)[i]? = some k → T.intern s k = (some i, s)
  nodup : (T.keys s).Nodup
  new : ∀ k, T.dom k → k ∉ T.keys s →
    (∃ t, T.intern s k = (some (T.keys s).length, t) ∧ T.keys t = T.keys s ++ [k]) ∨
      (T.intern s k = (none, s) ∧ (T.keys s).length = T.cap s)

/-- The ways to answer a key. -/
inductive Answers (T : InternTable κ) (s : PartitionState) (k : κ) :
    Option ℕ × PartitionState → Prop
  | full (h : T.cap s ≤ (T.keys s).length) : Answers T s k (none, s)
  | known {i} (hlt : (T.keys s).length < T.cap s) (h : (T.keys s)[i]? = some k) :
    Answers T s k (some i, s)
  | new {t} (hlt : (T.keys s).length < T.cap s) (h : k ∉ T.keys s)
      (ht : T.keys t = T.keys s ++ [k]) : Answers T s k (some (T.keys s).length, t)

/-- What the tables of a sound state have in common. -/
structure Lawful (T : InternTable κ) (s : PartitionState) : Prop where
  nodup : (T.keys s).Nodup
  le : (T.keys s).length ≤ T.cap s
  dom : ∀ k ∈ T.keys s, T.dom k
  answers : ∀ k, T.dom k → T.Answers s k (T.intern s k)

/-- Rows and capacity of a table whose index is sound, under 64-bit codes of its keys. -/
theorem Lawful.of_tableSound {f : κ → UInt64} {c : UInt32} {t : DenseIndex}
    (h : TableSound c ((T.keys s).map f) t) (hcap : T.cap s = c.toNat)
    (hdom : ∀ k ∈ T.keys s, T.dom k)
    (hinj : ∀ k k', T.dom k → T.dom k' → f k = f k' → k = k')
    (hfull : ∀ k, T.cap s ≤ (T.keys s).length → T.intern s k = (none, s))
    (hknown : ∀ k i, (T.keys s).length < T.cap s →
      t.insertOrGet (f k) (T.keys s).length = (.present i, t) → T.intern s k = (some i, s))
    (hnew : ∀ k t', (T.keys s).length < T.cap s →
      t.insertOrGet (f k) (T.keys s).length = (.added, t') →
      ∃ s', T.intern s k = (some (T.keys s).length, s') ∧ T.keys s' = T.keys s ++ [k]) :
    T.Lawful s where
  nodup := h.index.nodup.of_map f
  le := by simpa [hcap] using h.le
  dom := hdom
  answers k hk := by
    rcases Nat.lt_or_ge (T.keys s).length (T.cap s) with hlt | hge
    · obtain ⟨i, hi, hins⟩ | ⟨hno, t', hins, -⟩ :=
        h.insert (by rw [List.length_map, ← hcap]; exact hlt) (f k)
      · rw [List.length_map] at hins
        rw [List.getElem?_map, Option.map_eq_some_iff] at hi
        obtain ⟨k', hk', hcode⟩ := hi
        obtain rfl := hinj k' k (hdom k' (List.mem_of_getElem? hk')) hk hcode
        rw [hknown k' i hlt hins]
        exact .known hlt hk'
      · rw [List.length_map] at hins
        obtain ⟨s', heq, hkeys⟩ := hnew k t' hlt hins
        rw [heq]
        exact .new hlt (fun hmem => hno (List.mem_map_of_mem hmem)) hkeys
    · rw [hfull k hge]
      exact .full hge

/-- Accounts are interned by document, through an index over the rows. -/
theorem lawful_accounts (hs : s.Sound) : accounts.Lawful s := by
  have hlen : s.accountKeys.length = s.accounts.length := List.length_map _
  refine .of_tableSound (f := id) (t := s.accountIndex) (c := s.cap.accounts) ?_ rfl
    (fun _ _ => trivial) (fun _ _ _ _ h => h) (fun doc hge => ?_) (fun doc i hlt hins => ?_)
    fun doc t hlt hins => ?_
  · rw [List.map_id]
    exact hs.accounts
  · refine if_pos ?_
    rw [hs.table_accounts]
    exact hlen ▸ hge
  · have hins' : s.accountIndex.insertOrGet doc s.accounts.length = (.present i, s.accountIndex) :=
      hlen ▸ hins
    show s.internAccount doc = _
    rw [internAccount, hs.table_accounts, if_neg (Nat.not_le.mpr (hlen ▸ hlt)), hins']
  · have hins' : s.accountIndex.insertOrGet doc s.accounts.length = (.added, t) := hlen ▸ hins
    refine ⟨{ s with accountIndex := t, accounts := s.accounts ++ [AccountRow.cleared doc] }, ?_,
      ?_⟩
    · show s.internAccount doc = _
      rw [internAccount, hs.table_accounts, if_neg (Nat.not_le.mpr (hlen ▸ hlt)), hins']
      exact congrArg (fun n => (some n, _)) hlen.symm
    · simp [accounts, accountKeys, AccountRow.cleared]

/-- The key of an instrument determines its external id. -/
theorem instrumentKey_inj {a b : UInt32} (h : instrumentKey a = instrumentKey b) : a = b :=
  UInt32.toNat_inj.mp (by simpa [instrumentKey] using congrArg UInt64.toNat h)

/-- Instruments are interned by external id. -/
theorem lawful_instruments (hs : s.Sound) : instruments.Lawful s := by
  have hlen : (s.instruments.map InstrumentRow.externalId).length = s.instruments.length :=
    List.length_map _
  refine .of_tableSound (f := instrumentKey) (t := s.instrumentIndex) (c := s.cap.instruments)
    ?_ rfl (fun _ _ => trivial) (fun _ _ _ _ h => instrumentKey_inj h) (fun id hge => ?_)
    (fun id i hlt hins => ?_) fun id t hlt hins => ?_
  · have hkeys : (instruments.keys s).map instrumentKey = s.instrumentKeys := by
      simp [instruments, instrumentKeys]
    rw [hkeys]
    exact hs.instruments
  · refine if_pos ?_
    rw [hs.table_instruments]
    exact hlen ▸ hge
  · have hins' : s.instrumentIndex.insertOrGet (instrumentKey id) s.instruments.length =
        (.present i, s.instrumentIndex) := hlen ▸ hins
    show s.internInstrument id = _
    rw [internInstrument, hs.table_instruments, if_neg (Nat.not_le.mpr (hlen ▸ hlt)), hins']
  · have hins' : s.instrumentIndex.insertOrGet (instrumentKey id) s.instruments.length =
        (.added, t) := hlen ▸ hins
    refine ⟨{ s with
      instrumentIndex := t
      instruments := s.instruments ++ [InstrumentRow.cleared id] }, ?_, ?_⟩
    · show s.internInstrument id = _
      rw [internInstrument, hs.table_instruments, if_neg (Nat.not_le.mpr (hlen ▸ hlt)), hins']
      exact congrArg (fun n => (some n, _)) hlen.symm
    · simp [instruments, InstrumentRow.cleared]

/-- Positions are interned by the rows of account and instrument. -/
theorem lawful_positions (hs : s.Sound) : positions.Lawful s := by
  have hlen : (positions.keys s).length = s.custody.length := List.length_map _
  refine .of_tableSound (f := fun p => positionKey p.1 p.2) (t := s.positionIndex)
    (c := s.cap.positions) ?_ rfl (fun p hp => ?_) (fun p q hp hq h => ?_) (fun p hge => ?_)
    (fun p i hlt hins => ?_) fun p t hlt hins => ?_
  · have hkeys : (positions.keys s).map (fun p => positionKey p.1 p.2) = s.positionKeys := by
      simp [positions, positionKeys]
    rw [hkeys]
    exact hs.positions
  · obtain ⟨c, hc, rfl⟩ := List.mem_map.mp hp
    exact hs.custodyRows c hc
  · obtain ⟨h1, h2⟩ := positionKey_inj hp.1 hp.2 hq.1 hq.2 h
    exact Prod.ext h1 h2
  · exact internPosition_full hs (hlen ▸ hge) _ _
  · have hins' : s.positionIndex.insertOrGet (positionKey p.1 p.2) s.custody.length =
        (.present i, s.positionIndex) := hlen ▸ hins
    show s.internPosition p.1 p.2 = _
    rw [internPosition, hs.table_positions, if_neg (Nat.not_le.mpr (hlen ▸ hlt)), hins']
  · have hins' : s.positionIndex.insertOrGet (positionKey p.1 p.2) s.custody.length =
        (.added, t) := hlen ▸ hins
    refine ⟨{ s with
      positionIndex := t
      custody := s.custody ++ [CustodyRow.cleared p.1 p.2] }, ?_, ?_⟩
    · show s.internPosition p.1 p.2 = _
      rw [internPosition, hs.table_positions, if_neg (Nat.not_le.mpr (hlen ▸ hlt)), hins']
      exact congrArg (fun n => (some n, _)) hlen.symm
    · simp [positions, CustodyRow.cleared]

/-- A known key, where the table is not full. -/
theorem Lawful.intern_known (h : T.Lawful s) (hlt : (T.keys s).length < T.cap s) {i : ℕ} {k : κ}
    (hk : (T.keys s)[i]? = some k) : T.intern s k = (some i, s) := by
  have hmem := List.mem_of_getElem? hk
  have hans := h.answers k (h.dom k hmem)
  generalize T.intern s k = p at hans ⊢
  cases hans with
  | full hfull => omega
  | @known j _ hj =>
    obtain ⟨hi', -⟩ := List.getElem?_eq_some_iff.mp hk
    obtain rfl := (List.getElem?_inj hi' h.nodup).mp (hk.trans hj.symm)
    rfl
  | new _ hnew => exact absurd hmem hnew

/-- Any key, where the table is full. -/
theorem Lawful.intern_full (h : T.Lawful s) (hge : T.cap s ≤ (T.keys s).length) {k : κ}
    (hk : T.dom k) : T.intern s k = (none, s) := by
  have hans := h.answers k hk
  generalize T.intern s k = p at hans ⊢
  cases hans with
  | full => rfl
  | known hlt | new hlt => omega

/-- A new key, where the table is not full. -/
theorem Lawful.intern_new (h : T.Lawful s) (hlt : (T.keys s).length < T.cap s) {k : κ}
    (hdom : T.dom k) (hk : k ∉ T.keys s) :
    ∃ t, T.intern s k = (some (T.keys s).length, t) ∧ T.keys t = T.keys s ++ [k] := by
  have hans := h.answers k hdom
  generalize T.intern s k = p at hans ⊢
  cases hans with
  | full hfull => omega
  | known _ hi => exact absurd (List.mem_of_getElem? hi) hk
  | @new t _ _ ht => exact ⟨t, rfl, ht⟩

/-- Interning is stable exactly where the table is not full of rows, given that a row keeps its
key and that the rows there are were there after some step. -/
theorem Lawful.stable_iff (h : T.Lawful s) {steps : List Step}
    (hkept : ∀ x ∈ steps, T.keys x.after <+: T.keys s)
    (hlast : T.keys s ≠ [] → ∃ x ∈ steps, T.keys x.after = T.keys s) :
    T.Stable steps s ↔ T.Open s := by
  constructor
  · intro hst
    by_contra hopen
    obtain ⟨hne, hge⟩ := not_or.mp hopen
    obtain ⟨x, hx, heq⟩ := hlast hne
    obtain ⟨k, ks, hkeys⟩ := List.exists_cons_of_ne_nil hne
    have hk : (T.keys s)[0]? = some k := by rw [hkeys]; rfl
    have hknown := hst.known x hx 0 k (by rw [heq]; exact hk)
    rw [h.intern_full (Nat.not_lt.mp hge) (h.dom k (List.mem_of_getElem? hk))] at hknown
    cases hknown
  · intro hopen
    refine ⟨fun x hx i k hk => ?_, h.nodup, fun k hdom hk => ?_⟩
    · obtain ⟨more, hmore⟩ := hkept x hx
      have hi := (List.getElem?_eq_some_iff.mp hk).1
      have hk' : (T.keys s)[i]? = some k := by rw [← hmore, List.getElem?_append_left hi, hk]
      obtain hnil | hlt := hopen
      · rw [hnil] at hk'
        cases hk'
      · exact h.intern_known hlt hk'
    · rcases Nat.lt_or_ge (T.keys s).length (T.cap s) with hlt | hge
      · exact .inl (h.intern_new hlt hdom hk)
      · exact .inr ⟨h.intern_full hge hdom, Nat.le_antisymm h.le hge⟩

end InternTable

/-! ### Rows keep their keys -/

/-- The rows of `s` are those of `s'` still, with the same keys. -/
structure KeepsKeys (s s' : PartitionState) : Prop where
  accounts : InternTable.accounts.keys s <+: InternTable.accounts.keys s'
  instruments : InternTable.instruments.keys s <+: InternTable.instruments.keys s'
  positions : InternTable.positions.keys s <+: InternTable.positions.keys s'

namespace KeepsKeys

variable {s s' s₁ : PartitionState}

theorem refl (s : PartitionState) : KeepsKeys s s :=
  ⟨List.prefix_rfl, List.prefix_rfl, List.prefix_rfl⟩

/-- Rows kept and kept again are kept. -/
theorem trans (h₁ : KeepsKeys s s₁) (h₂ : KeepsKeys s₁ s') : KeepsKeys s s' :=
  ⟨h₁.accounts.trans h₂.accounts, h₁.instruments.trans h₂.instruments,
    h₁.positions.trans h₂.positions⟩

/-- Interning only adds rows behind the others. -/
theorem of_interned (h : Interned s s₁) : KeepsKeys s s₁ where
  accounts := h.accountKeys_prefix
  instruments := by
    obtain ⟨new, hnew, -⟩ := h.instruments
    exact List.IsPrefix.map _ ⟨new, hnew.symm⟩
  positions := by
    obtain ⟨new, hnew, -⟩ := h.custody
    exact List.IsPrefix.map _ ⟨new, hnew.symm⟩

/-- A rejected event only adds rows behind the others. -/
theorem of_kept (h : Kept s s') : KeepsKeys s s' where
  accounts := h.accountKeys_prefix
  instruments := by
    obtain ⟨new, hnew, -⟩ := h.instruments
    exact List.IsPrefix.map _ ⟨new, hnew.symm⟩
  positions := by
    obtain ⟨new, hnew, -⟩ := h.custody
    exact List.IsPrefix.map _ ⟨new, hnew.symm⟩

/-- An accepted event changes rows in place, and adds others behind them. -/
theorem of_effect {x : Event} (h : Effect s x s') (hs : s.Sound) : KeepsKeys s s' where
  accounts := h.accountKeys_prefix
  instruments := by
    have hkeys : ∀ t : PartitionState,
        (InternTable.instruments.keys t).map instrumentKey = t.instrumentKeys := fun t => by
      simp [InternTable.instruments, instrumentKeys]
    have hpre := h.instrumentKeys_prefix
    rw [← hkeys, ← hkeys] at hpre
    exact (List.prefix_map_iff_of_injective fun _ _ => InternTable.instrumentKey_inj).mp hpre
  positions := by
    have hle := h.custody_length
    refine List.prefix_iff_getElem?.mpr fun p hp => ?_
    have hp : p < s.custody.length := by simpa [InternTable.positions] using hp
    have hc' := List.getElem?_eq_getElem (hp.trans_le hle)
    obtain ⟨hacct, hinst⟩ := (h.custodyStep hs hc').owner
    rw [PartitionState.rowBefore, List.getD_eq_getElem _ _ hp] at hacct hinst
    show ((s'.custody.map fun c => (c.account, c.instrument)))[p]? = _
    rw [List.getElem?_map, hc', Option.map_some, hacct, hinst]
    simp [InternTable.positions]

/-- An event that ends without effect keeps the rows. -/
theorem of_ended {ev : EventView} {st : Status} (h : Ended s ev st s') (hs : s.Sound) :
    KeepsKeys s s' := by
  cases h with
  | turned hkept => exact of_kept hkept
  | executedBefore | diverged => exact refl s
  | actionBefore _ hI | incomeBefore _ hI => exact of_interned hI
  | refused _ hI =>
    have hkeys := of_interned hI
    exact ⟨hkeys.accounts, hkeys.instruments, hkeys.positions⟩
  | unpublished _ _ heff | corrupt _ _ heff => exact of_effect heff hs
  | corruptMove _ heff =>
    have hkeys := of_effect heff hs
    exact ⟨hkeys.accounts, hkeys.instruments, hkeys.positions⟩

/-- Every event keeps the rows, whatever its answer. -/
theorem of_apply (hs : s.Sound) {o : Option Outbox} {ev : EventView} {st : Status} {e : Engine}
    (h : apply ⟨s, o⟩ ev = .ok (st, e)) : KeepsKeys s e.s := by
  obtain ⟨s₁, heq, ⟨-, x, -, heff⟩ | hend⟩ := apply_cases hs h
  · have hkeys := of_effect heff hs
    rw [heq]
    exact ⟨hkeys.accounts, hkeys.instruments, hkeys.positions⟩
  · have hkeys := of_ended hend hs
    rw [heq]
    exact ⟨hkeys.accounts, hkeys.instruments, hkeys.positions⟩

/-- States that no event can tell apart have the same rows. -/
theorem of_agree (h : Agree s s') : KeepsKeys s s' ∧ KeepsKeys s' s := by
  obtain ⟨c, rfl, -⟩ := h
  exact ⟨⟨List.prefix_rfl, List.prefix_rfl, List.prefix_rfl⟩,
    ⟨List.prefix_rfl, List.prefix_rfl, List.prefix_rfl⟩⟩

end KeepsKeys

/-- The rows after any step of a session are there at its end. -/
theorem Session.keepsKeys {s₀ s : PartitionState} {steps : List Step} (h : Session s₀ steps s)
    (hs₀ : s₀.Sound) {x : Step} (hx : x ∈ steps) : KeepsKeys x.after s := by
  induction h with
  | start => cases hx
  | @event steps s o ev st e h happ ih =>
    have hstep := KeepsKeys.of_apply (h.sound hs₀) happ
    obtain hx | hx := List.mem_append.mp hx
    · exact (ih hx).trans hstep
    · obtain rfl := List.mem_singleton.mp hx
      exact .refl _
  | reload h hsave hload ih =>
    exact (ih hx).trans (KeepsKeys.of_agree (agree_of_load (h.sound hs₀) hsave hload)).1

/-- Whatever rows there are, the last step left them. -/
theorem Session.lastKeys {s₀ s : PartitionState} {steps : List Step} (h : Session s₀ steps s)
    (hs₀ : s₀.Sound) : (steps = [] ∧ KeepsKeys s s₀) ∨ ∃ x ∈ steps, KeepsKeys s x.after := by
  induction h with
  | start => exact .inl ⟨rfl, .refl _⟩
  | event _ _ _ => exact .inr ⟨_, List.mem_append_right _ List.mem_cons_self, .refl _⟩
  | reload h hsave hload ih =>
    have hback := (KeepsKeys.of_agree (agree_of_load (h.sound hs₀) hsave hload)).2
    obtain ⟨hnil, hkeys⟩ | ⟨x, hx, hkeys⟩ := ih
    · exact .inl ⟨hnil, hback.trans hkeys⟩
    · exact .inr ⟨x, hx, hback.trans hkeys⟩

/-! ### Events about known accounts and instruments -/

/-- The accounts and instruments that the handler of the event interns have rows. -/
def Event.KnownIn (s : PartitionState) : Event → Prop
  | .tradeExecuted e =>
    e.account ∈ s.accountKeys ∧ instrumentKey e.instrument ∈ s.instrumentKeys
  | .tradeAllocated e => e.fromAccount ∈ s.accountKeys ∧ e.toAccount ∈ s.accountKeys
  | .batchNetted e => e.account ∈ s.accountKeys
  | .tradeSettled e =>
    e.account ∈ s.accountKeys ∧ instrumentKey e.instrument ∈ s.instrumentKeys
  | .corporateActionApplied e =>
    e.account ∈ s.accountKeys ∧ instrumentKey e.instrument ∈ s.instrumentKeys
  | .dividendPaid e => e.account ∈ s.accountKeys
  | .closingPriceSet e => instrumentKey e.instrument ∈ s.instrumentKeys
  | .dayOpened _ | .custodyReconciled _ _ | .eodMarked _ => True

/-- The positions that the handler interns, by the rows of their account and instrument. -/
def Event.TakesPosition (s : PartitionState) (p : ℕ × ℕ) : Event → Prop
  | .tradeExecuted e => s.accountKeys[p.1]? = some e.account ∧
      s.instrumentKeys[p.2]? = some (instrumentKey e.instrument)
  | .tradeAllocated e =>
    (s.accountKeys[p.1]? = some e.fromAccount ∨ s.accountKeys[p.1]? = some e.toAccount) ∧
      ∃ t r, s.tradeIndex.find e.tradeId = some t ∧ s.trades[t]? = some r ∧ p.2 = r.instrument
  | .corporateActionApplied e => s.accountKeys[p.1]? = some e.account ∧
      s.instrumentKeys[p.2]? = some (instrumentKey e.instrument)
  | _ => False

/-- The ways for an event to run out of room that are not for interning what is known: the trades
are full, the event opens more positions than there are rows left, the set of keys is full, or the
outbox has no room for the update. -/
inductive Event.RunsOut (s : PartitionState) (o : Option Outbox) (lsn : ℕ) : Event → Prop
  | trades {e} (h : s.cap.trades.toNat ≤ s.trades.length) : RunsOut s o lsn (.tradeExecuted e)
  | positions {x : Event} {new : List (ℕ × ℕ)} (hnd : new.Nodup)
      (hnew : ∀ p ∈ new, x.TakesPosition s p ∧ p ∉ InternTable.positions.keys s)
      (hroom : s.cap.positions.toNat < s.custody.length + new.length) : RunsOut s o lsn x
  | actions {e} {acct : ℕ} (hacct : s.accountKeys[acct]? = some e.account)
      (h : (s.appliedActions.insert e.actionId acct).1 = .full) :
      RunsOut s o lsn (.corporateActionApplied e)
  | income {e} {acct : ℕ} (hacct : s.accountKeys[acct]? = some e.account)
      (h : (s.appliedIncome.insert e.actionId acct).1 = .full) : RunsOut s o lsn (.dividendPaid e)
  | outbox {x : Event} {ob ob' : Outbox} {update : Bytes} {st : Status} (ho : o = some ob)
      (hstage : ob.stage lsn .readModelUpdate update = .ok (st, ob')) (hst : st.isOk = false) :
      RunsOut s o lsn x

/-- An event about known accounts and instruments is answered `ArenaExhausted` for a reason of its
own only. -/
def RoomForKnown (s : PartitionState) : Prop :=
  ∀ ev o st e x, apply ⟨s, o⟩ ev = .ok (st, e) → st.code = .arenaExhausted →
    LogRecord.event ev = some x → x.KnownIn s → x.RunsOut s o ev.lsn

/-- An executed trade could be allocated from an account without a position to one that has it,
with one row left. -/
def LastRow (s : PartitionState) : Prop :=
  s.custody.length + 1 = s.cap.positions.toNat ∧ ∃ r ∈ s.trades,
    r.state = TradeState.executed.code ∧ ∃ de < s.accounts.length, ∃ para < s.accounts.length,
      (de, r.instrument) ∉ InternTable.positions.keys s ∧
        (para, r.instrument) ∈ InternTable.positions.keys s

namespace Apply

variable {α β : Type} {o : Option Outbox} {lsn : ℕ} {e : Engine} {Q : β → Engine → Prop}
  {E : Status → Engine → Prop}

/-- The outbox does not take an update. -/
def Refuses (o : Option Outbox) (lsn : ℕ) : Prop :=
  ∃ ob ob' update st, o = some ob ∧ ob.stage lsn .readModelUpdate update = .ok (st, ob') ∧
    st.isOk = false

/-- The part leaves the outbox alone, and runs out of room only for the outbox. -/
def Spacious (o : Option Outbox) (lsn : ℕ) (m : Apply α) : Prop :=
  Proc.Ensures (fun e : Engine => e.outbox = o) m (fun _ e => e.outbox = o)
    (fun st _ => st.code = .arenaExhausted → Refuses o lsn)

/-- Spacious parts can be put one after the other. -/
theorem Spacious.bind {m : Apply α} {f : α → Apply β} (hm : Spacious o lsn m)
    (hf : ∀ a, Spacious o lsn (f a)) : Spacious o lsn (m >>= f) := Proc.Ensures.bind hm hf

theorem Spacious.pure (a : α) : Spacious o lsn (pure a : Apply α) := Proc.Ensures.pure fun _ h => h

/-- A refusal for another reason. -/
theorem Spacious.fail {st : Status} (h : st.code ≠ .arenaExhausted) :
    Spacious o lsn (Proc.fail st : Apply α) := Proc.Ensures.fail fun _ _ hst => absurd hst h

/-- A guard that refuses for another reason. -/
theorem Spacious.guard (c : Prop) [Decidable c] {st : Status} (h : st.code ≠ .arenaExhausted) :
    Spacious o lsn (Proc.guard c st : Apply PUnit) :=
  Proc.Ensures.guard (fun _ h _ => h) fun _ _ _ hst => absurd hst h

/-- A value whose absence is refused for another reason. -/
theorem Spacious.orFail (x : Option α) {st : Status} (h : st.code ≠ .arenaExhausted) :
    Spacious o lsn (Proc.orFail x st : Apply α) :=
  Proc.Ensures.orFail (fun _ _ h _ => h) fun _ _ _ hst => absurd hst h

theorem Spacious.lift (x : Exec α) : Spacious o lsn (Proc.lift x : Apply α) :=
  Proc.Ensures.query fun _ _ h _ => h

/-- Looking at the state takes no room. -/
theorem Spacious.look (f : PartitionState → Exec α) : Spacious o lsn (look f) :=
  Proc.Ensures.query fun _ _ h _ => h

/-- A change of the state takes no room of the tables. -/
theorem Spacious.change (f : PartitionState → Exec PartitionState) : Spacious o lsn (change f) :=
  Proc.Ensures.update fun e e' h h' => by
    obtain ⟨s', -, rfl⟩ := map_eq_ok.mp h'
    exact h

theorem Spacious.ite {c : Prop} [Decidable c] {m n : Apply α} (hm : Spacious o lsn m)
    (hn : Spacious o lsn n) : Spacious o lsn (if c then m else n) :=
  Proc.Ensures.ite (fun _ => hm) fun _ => hn

/-- A date outside of the window is refused for another reason. -/
theorem spacious_slot (date : DateYmd) : Spacious o lsn (slot date) :=
  .bind (.look _) fun _ => .orFail _ nofun

theorem spacious_checkBuckets (pos : ℕ) : Spacious o lsn (checkBuckets pos) :=
  .bind (.look _) fun _ => .guard _ nofun

/-- Advancing trades takes no room. -/
theorem spacious_advanceAccount (acct : ℕ) (covered : TradeRow → Bool) (g : TradeTrigger) :
    Spacious o lsn (advanceAccount acct covered g) := by
  rintro e (st | n) e' ho h
  · simp only [advanceAccount, bind, except_bind_eq_ok] at h
    obtain ⟨a, -, ⟨n, rows⟩, -, h⟩ := h
    simp at h
  · simp only [advanceAccount, bind, except_bind_eq_ok] at h
    obtain ⟨a, -, ⟨n, rows⟩, -, h⟩ := h
    obtain ⟨-, rfl⟩ := Prod.mk.inj (Except.ok.inj h)
    exact ho

/-- A last part, which may publish. -/
def Lasts (o : Option Outbox) (lsn : ℕ) (m : Apply α) : Prop :=
  Proc.Ensures (fun e : Engine => e.outbox = o) m (fun _ _ => True)
    (fun st _ => st.code = .arenaExhausted → Refuses o lsn)

/-- A spacious part may come last. -/
theorem Spacious.lasts {m : Apply α} (h : Spacious o lsn m) : Lasts o lsn m :=
  Proc.Ensures.mono h (fun _ h => h) (fun _ _ _ => trivial) fun _ _ h => h

/-- Spacious parts may stand before the last one. -/
theorem Lasts.bind {m : Apply α} {f : α → Apply β} (hm : Spacious o lsn m)
    (hf : ∀ a, Lasts o lsn (f a)) : Lasts o lsn (m >>= f) := Proc.Ensures.bind hm hf

/-- Publishing a position is refused by the outbox only. -/
theorem lasts_publicaPosicao (ev : EventView) (pos : ℕ) :
    Lasts o ev.lsn (publicaPosicao ev pos) := by
  intro e r e' ho h
  unfold publicaPosicao at h
  split at h
  · obtain ⟨rfl, -⟩ := Prod.mk.inj (Except.ok.inj h)
    trivial
  · rename_i ob hob
    simp only [bind, except_bind_eq_ok] at h
    obtain ⟨c, -, a, -, i, -, ⟨st, ob'⟩, hstage, h⟩ := h
    split_ifs at h with hst
    · obtain ⟨rfl, -⟩ := Prod.mk.inj (Except.ok.inj h)
      trivial
    · obtain ⟨rfl, -⟩ := Prod.mk.inj (Except.ok.inj h)
      exact fun _ => ⟨ob, ob', _, st, ho ▸ hob, hstage, by simpa using hst⟩

/-- The end of the handlers that check and publish a position. -/
theorem lasts_tail (ev : EventView) (pos : ℕ) :
    Lasts o ev.lsn (checkBuckets pos >>= fun _ => publicaPosicao ev pos) :=
  .bind (spacious_checkBuckets pos) fun _ => lasts_publicaPosicao ev pos

/-- From `e` the part runs out of room only for the reasons of the event. -/
abbrev Roomy (s : PartitionState) (o : Option Outbox) (lsn : ℕ) (x : Event) (e : Engine)
    (m : Apply α) : Prop :=
  Proc.From e m (fun _ _ => True) fun st _ => st.code = .arenaExhausted → x.RunsOut s o lsn

/-- What runs out of room only for the outbox does so for a reason of the event. -/
theorem Lasts.roomy {m : Apply α} (h : Lasts o lsn m) (ho : e.outbox = o) {s : PartitionState}
    {x : Event} : Roomy s o lsn x e m :=
  (h.from ho).mono (fun _ _ _ => trivial) fun _ _ himp hst => by
    obtain ⟨ob, ob', update, st, ho, hstage, hno⟩ := himp hst
    exact .outbox ho hstage hno

/-! ### Interning what is known -/

/-- An account with a row is found, while a row is free. -/
theorem from_knownAccount (hs : e.s.Sound) (hopen : InternTable.accounts.Open e.s) {doc : UInt64}
    (hk : doc ∈ e.s.accountKeys) {f : ℕ → Apply β}
    (hf : ∀ a, e.s.accountKeys[a]? = some doc → Proc.From e (f a) Q E) :
    Proc.From e (account doc >>= f) Q E := by
  obtain ⟨a, ha⟩ := List.mem_iff_getElem?.mp hk
  have hint : e.s.internAccount doc = (some a, e.s) := by
    obtain hnil | hlt := hopen
    · rw [show e.s.accountKeys = [] from hnil] at hk
      exact absurd hk List.not_mem_nil
    · exact (InternTable.lawful_accounts hs).intern_known hlt ha
  refine Proc.From.bind (R := fun r eng => r = a ∧ eng = e) ?_ ?_
  · exact from_ask hint (Proc.From.pure ⟨rfl, rfl⟩)
  · rintro _ _ ⟨rfl, rfl⟩
    exact hf _ ha

/-- An instrument with a row is found, while a row is free. -/
theorem from_knownInstrument (hs : e.s.Sound) (hopen : InternTable.instruments.Open e.s)
    {id : UInt32} (hk : instrumentKey id ∈ e.s.instrumentKeys) {f : ℕ → Apply β}
    (hf : ∀ i, e.s.instrumentKeys[i]? = some (instrumentKey id) → Proc.From e (f i) Q E) :
    Proc.From e (instrument id >>= f) Q E := by
  obtain ⟨i, hi⟩ := List.mem_iff_getElem?.mp hk
  have hid : (InternTable.instruments.keys e.s)[i]? = some id := by
    rw [instrumentKeys, List.getElem?_map, Option.map_eq_some_iff] at hi
    obtain ⟨r, hr, hkey⟩ := hi
    show (e.s.instruments.map InstrumentRow.externalId)[i]? = _
    rw [List.getElem?_map, hr, Option.map_some, InternTable.instrumentKey_inj hkey]
  have hint : e.s.internInstrument id = (some i, e.s) := by
    obtain hnil | hlt := hopen
    · rw [hnil] at hid
      exact absurd hid.symm (Option.some_ne_none id)
    · exact (InternTable.lawful_instruments hs).intern_known hlt hid
  refine Proc.From.bind (R := fun r eng => r = i ∧ eng = e) ?_ ?_
  · exact from_ask hint (Proc.From.pure ⟨rfl, rfl⟩)
  · rintro _ _ ⟨rfl, rfl⟩
    exact hf _ hi

/-- A position is found or opened, unless it is new and the table is full. -/
theorem internPosition_open {s : PartitionState} (hs : s.Sound)
    (hopen : InternTable.positions.Open s) {a i : ℕ} (ha : a < 2 ^ 32) (hi : i < 2 ^ 32) :
    (∃ p, s.internPosition a i = (some p, s)) ∨
      ((a, i) ∉ InternTable.positions.keys s ∧ s.cap.positions.toNat < s.custody.length + 1) ∨
      ((a, i) ∉ InternTable.positions.keys s ∧ ∃ p s₁, s.internPosition a i = (some p, s₁) ∧
        InternTable.positions.keys s₁ = InternTable.positions.keys s ++ [(a, i)]) := by
  have hlaw := InternTable.lawful_positions hs
  have hlen : (InternTable.positions.keys s).length = s.custody.length := List.length_map _
  by_cases hk : (a, i) ∈ InternTable.positions.keys s
  · obtain ⟨p, hp⟩ := List.mem_iff_getElem?.mp hk
    obtain hnil | hlt := hopen
    · rw [hnil] at hk
      exact absurd hk List.not_mem_nil
    · have hint := hlaw.intern_known hlt hp
      exact .inl ⟨p, hint⟩
  · rcases Nat.lt_or_ge s.custody.length s.cap.positions.toNat with hlt | hge
    · obtain ⟨t, hint, hkeys⟩ := hlaw.intern_new (hlen ▸ hlt) (k := (a, i)) ⟨ha, hi⟩ hk
      exact .inr (.inr ⟨hk, _, t, hint, hkeys⟩)
    · exact .inr (.inl ⟨hk, Nat.lt_succ_of_le hge⟩)

/-- A position that is answered is found or made. -/
theorem interned_of_internPosition {s s₁ : PartitionState} (hs : s.Sound) {a i p : ℕ}
    (ha : a < 2 ^ 32) (hi : i < 2 ^ 32) (h : s.internPosition a i = (some p, s₁)) :
    Interned s s₁ := by
  obtain heq | ⟨p', s', c, heq, hI, -⟩ := interned_internPosition hs ha hi
  · rw [h] at heq
    cases heq
  · obtain ⟨-, rfl⟩ := Prod.mk.inj (h.symm.trans heq)
    exact hI

/-- A position is found, or made while there is room; without room for it the event has a reason of
its own. -/
theorem from_takenPosition (hs : e.s.Sound) (hopen : InternTable.positions.Open e.s) {a i : ℕ}
    (ha : a < 2 ^ 32) (hi : i < 2 ^ 32) {f : ℕ → Apply β}
    (hE : (a, i) ∉ InternTable.positions.keys e.s →
      e.s.cap.positions.toNat < e.s.custody.length + 1 → ∀ st, E st e)
    (hf : ∀ p s₁, Interned e.s s₁ → Proc.From { e with s := s₁ } (f p) Q E) :
    Proc.From e (position a i >>= f) Q E := by
  refine Proc.From.bind (R := fun _ eng => ∃ s₁, eng = { e with s := s₁ } ∧ Interned e.s s₁) ?_ ?_
  · obtain heq | ⟨p, s₁, c, heq, hI, -⟩ := interned_internPosition hs ha hi
    · refine from_ask heq (Proc.From.fail ?_)
      obtain ⟨p, hp⟩ | ⟨hnew, hfull⟩ | ⟨-, p, s₁, hp, -⟩ := internPosition_open hs hopen ha hi
      · rw [heq] at hp
        cases hp
      · exact hE hnew hfull _
      · rw [heq] at hp
        cases hp
    · exact from_ask heq (Proc.From.pure ⟨s₁, rfl, hI⟩)
  · rintro p _ ⟨s₁, rfl, hI⟩
    exact hf p s₁ hI

/-! ### Handlers -/

section Handlers

variable {s : PartitionState} {ev : EventView}

/-- The payload of a record that stands for an event is complete. -/
theorem event_eq_some {t : Tmpl} {x : Event} (ht : Tmpl.ofId ev.tmpl.toNat = some t)
    (hx : LogRecord.event ev = some x) : Event.ofPayload ev.payload t = some x := by
  unfold LogRecord.event at hx
  simp only [ht] at hx
  split_ifs at hx
  exact hx

theorem roomy_applyDayOpened {x : Event} (ho : e.outbox = o) :
    Roomy s o ev.lsn x e (applyDayOpened ev) := by
  refine from_decode nofun fun _ => ?_
  refine Proc.From.guard (fun _ => nofun) fun _ => ?_
  refine from_look fun today _ => ?_
  refine Proc.From.guard (fun _ => nofun) fun _ => ?_
  exact (Spacious.change _).lasts.roomy ho

/-- An execution about what is known runs out of room for its trade, its position or its update
only. -/
theorem roomy_applyTradeExecuted (hs : s.Sound) (ha : InternTable.accounts.Open s)
    (hi : InternTable.instruments.Open s) (hp : InternTable.positions.Open s)
    (hk : (Event.tradeExecuted (.ofBytes ev.payload)).KnownIn s) :
    Roomy s o ev.lsn (.tradeExecuted (.ofBytes ev.payload)) ⟨s, o⟩ (applyTradeExecuted ev) := by
  refine from_decode nofun fun _ => ?_
  refine from_look fun full hfull => ?_
  obtain rfl := Except.ok.inj hfull
  refine Proc.From.guard (fun hno _ => ?_) fun _ => ?_
  · rw [hs.table_trades] at hno
    exact .trades (by simpa using hno)
  refine from_look fun known _ => ?_
  refine Proc.From.guard (fun _ => nofun) fun _ => ?_
  refine from_knownAccount hs ha hk.1 fun acct hacct => ?_
  refine from_knownInstrument hs hi hk.2 fun inst hinst => ?_
  refine from_row fun i _ => ?_
  refine Proc.From.guard (fun _ => nofun) fun _ => ?_
  refine from_slot nofun fun k _ => ?_
  have halt := lt_of_key hs.accounts hacct
  have hilt := lt_of_key hs.instruments hinst
  refine from_takenPosition hs hp (by omega) (by omega) (fun hnew hfull st _ => ?_)
    fun pos s₁ _ => ?_
  · refine .positions (List.nodup_singleton (acct, inst)) (fun p hmem => ?_) hfull
    obtain rfl := List.mem_singleton.mp hmem
    exact ⟨⟨hacct, hinst⟩, hnew⟩
  · refine Lasts.roomy (o := o) ?_ rfl
    refine .bind (.guard _ nofun) fun _ => .bind (.guard _ nofun) fun _ =>
      .bind (.guard _ nofun) fun _ => .bind (.lift _) fun _ => .bind (.orFail _ nofun) fun _ =>
        .bind (.look _) fun _ => .bind (.guard _ nofun) fun _ => .bind (.lift _) fun _ => ?_
    exact .bind (.change _) fun _ => .bind (.change _) fun _ => .bind (.change _) fun _ =>
      lasts_tail ev pos

/-- A netting about a known account never runs out of room. -/
theorem roomy_applyBatchNetted (hs : s.Sound) (ha : InternTable.accounts.Open s)
    (hk : (Event.batchNetted (.ofBytes ev.payload)).KnownIn s) :
    Roomy s o ev.lsn (.batchNetted (.ofBytes ev.payload)) ⟨s, o⟩ (applyBatchNetted ev) := by
  refine from_decode nofun fun _ => ?_
  refine from_knownAccount hs ha hk fun acct hacct => ?_
  refine Lasts.roomy (o := o) ?_ rfl
  refine .bind (spacious_slot _) fun _ => .bind (.look _) fun _ =>
    .bind (.ite ?_ (.pure _)) fun _ =>
    .bind (spacious_advanceAccount _ _ _) fun _ => (Spacious.ite (.change _) (.pure _)).lasts
  exact .bind (.change _) fun _ => .fail nofun

theorem spacious_settleBuckets (t : TradeSettled) (acct pos : ℕ) (outcome : SettleOutcome) :
    Spacious o lsn (settleBuckets t acct pos outcome) := by
  cases outcome with
  | settled =>
    exact .bind (spacious_slot _) fun _ => .bind (.look _) fun _ => .bind (.guard _ nofun) fun _ =>
      .bind (.change _) fun _ => .change _
  | deliveryFailure =>
    exact .bind (spacious_slot _) fun _ => .bind (.look _) fun _ => .bind (.guard _ nofun) fun _ =>
      .bind (.change _) fun _ => .bind (.change _) fun _ => .change _
  | boughtIn =>
    exact .bind (.look _) fun _ => .bind (.guard _ nofun) fun _ =>
      .bind (.change _) fun _ => .change _

/-- A settlement about what is known runs out of room for its update only. -/
theorem roomy_applyTradeSettled (hs : s.Sound) (ha : InternTable.accounts.Open s)
    (hi : InternTable.instruments.Open s)
    (hk : (Event.tradeSettled (.ofBytes ev.payload)).KnownIn s) :
    Roomy s o ev.lsn (.tradeSettled (.ofBytes ev.payload)) ⟨s, o⟩ (applyTradeSettled ev) := by
  refine from_decode nofun fun _ => ?_
  refine from_knownAccount hs ha hk.1 fun acct _ => ?_
  refine from_knownInstrument hs hi hk.2 fun inst _ => ?_
  refine Lasts.roomy (o := o) ?_ rfl
  exact .bind (.look _) fun _ => .bind (.orFail _ nofun) fun pos => .bind (.orFail _ nofun) fun _ =>
    .bind (spacious_settleBuckets _ _ _ _) fun _ => .bind (spacious_advanceAccount _ _ _) fun _ =>
      lasts_tail ev pos

/-- An action changes rows that are there. -/
theorem spacious_actOn (a : CorporateActionApplied) (acct pos : ℕ) (base : Raw)
    (type : ActionType) : Spacious o lsn (actOn a acct pos base type) := by
  have hsplit : Spacious o lsn (actSplit a pos base) :=
    .bind (.change _) fun _ => .bind (.look _) fun _ => .bind (.lift _) fun _ => .lift _
  cases type with
  | split => exact hsplit
  | reverseSplit => exact hsplit
  | bonus =>
    exact .bind (.lift _) fun _ => .bind (.lift _) fun _ => .bind (.guard _ nofun) fun _ =>
      .bind (.lift _) fun _ => .bind (.change _) fun _ => .lift _
  | subscription =>
    refine .bind (.ite ?_ (.pure _)) fun _ => .bind (.change _) fun _ => .bind (.change _) fun _ =>
      .pure _
    exact .bind (.lift _) fun _ => .guard _ nofun
  | leftoversAuction =>
    exact .bind (.look _) fun _ => .bind (.lift _) fun _ => .bind (.change _) fun _ =>
      .bind (.change _) fun _ => .pure _

/-- An action about what is known runs out of room for its position, its key or its update only. -/
theorem roomy_applyCorporateAction (hs : s.Sound) (ha : InternTable.accounts.Open s)
    (hi : InternTable.instruments.Open s) (hp : InternTable.positions.Open s)
    (hk : (Event.corporateActionApplied (.ofBytes ev.payload)).KnownIn s) :
    Roomy s o ev.lsn (.corporateActionApplied (.ofBytes ev.payload)) ⟨s, o⟩
      (applyCorporateAction ev) := by
  refine from_decode nofun fun _ => ?_
  refine from_knownAccount hs ha hk.1 fun acct hacct => ?_
  refine from_knownInstrument hs hi hk.2 fun inst hinst => ?_
  have halt := lt_of_key hs.accounts hacct
  have hilt := lt_of_key hs.instruments hinst
  refine from_takenPosition hs hp (by omega) (by omega) (fun hnew hfull st _ => ?_)
    fun pos s₁ hI => ?_
  · refine .positions (List.nodup_singleton (acct, inst)) (fun p hmem => ?_) hfull
    obtain rfl := List.mem_singleton.mp hmem
    exact ⟨⟨hacct, hinst⟩, hnew⟩
  refine Proc.From.orFail (fun _ => nofun) fun type _ => ?_
  refine Proc.From.guard (fun _ => nofun) fun _ => ?_
  refine Proc.From.bind (R := fun _ eng => eng.outbox = o) ?_ fun _ eng ho => ?_
  · refine from_ask rfl ?_
    show Proc.From _ (refusedBy _ (s₁.appliedActions.insert _ acct).1) _ _
    rw [hI.appliedActions]
    rcases hins : (s.appliedActions.insert
      (CorporateActionApplied.ofBytes ev.payload).actionId acct).1 with v | _ | _
    · exact Proc.From.fail nofun
    · exact Proc.From.pure rfl
    · exact Proc.From.fail fun _ => .actions hacct hins
  · refine Lasts.roomy ?_ ho
    exact .bind (.look _) fun _ => .bind (.lift _) fun _ =>
      .bind (spacious_actOn _ _ _ _ _) fun _ =>
      .bind (.change _) fun _ => .bind (.ite (.change _) (.pure _)) fun _ => lasts_tail ev pos

/-- An income about a known account runs out of room for its key only. -/
theorem roomy_applyDividendPaid (hs : s.Sound) (ha : InternTable.accounts.Open s)
    (hk : (Event.dividendPaid (.ofBytes ev.payload)).KnownIn s) :
    Roomy s o ev.lsn (.dividendPaid (.ofBytes ev.payload)) ⟨s, o⟩ (applyDividendPaid ev) := by
  refine from_decode nofun fun _ => ?_
  refine from_knownAccount hs ha hk fun acct hacct => ?_
  refine Proc.From.query fun net _ => ?_
  refine Proc.From.guard (fun _ => nofun) fun _ => ?_
  refine Proc.From.guard (fun _ => nofun) fun _ => ?_
  refine Proc.From.query fun expected _ => ?_
  refine Proc.From.bind (R := fun _ eng => eng = ⟨s, o⟩) ?_ ?_
  · split_ifs
    · exact from_change fun _ _ => Proc.From.fail nofun
    · exact Proc.From.pure rfl
  rintro _ _ rfl
  refine Proc.From.bind (R := fun _ eng => eng.outbox = o) ?_ fun _ eng ho => ?_
  · refine from_ask rfl ?_
    rcases hins : (s.appliedIncome.insert (DividendPaid.ofBytes ev.payload).actionId acct).1
      with v | _ | _
    · exact Proc.From.fail nofun
    · exact Proc.From.pure rfl
    · exact Proc.From.fail fun _ => .income hacct hins
  · exact (Spacious.change _).lasts.roomy ho

/-- A price of a known instrument never runs out of room. -/
theorem roomy_applyClosingPrice (hs : s.Sound) (hi : InternTable.instruments.Open s)
    (hk : (Event.closingPriceSet (.ofBytes ev.payload)).KnownIn s) :
    Roomy s o ev.lsn (.closingPriceSet (.ofBytes ev.payload)) ⟨s, o⟩ (applyClosingPrice ev) := by
  refine from_decode nofun fun _ => ?_
  refine Proc.From.guard (fun _ => nofun) fun _ => ?_
  have hk : instrumentKey (ClosingPriceSet.ofBytes ev.payload).instrument ∈ s.instrumentKeys := hk
  refine from_knownInstrument hs hi hk fun inst _ => ?_
  exact (Spacious.change _).lasts.roomy rfl

theorem roomy_applyCustodyReconciled {x : Event} (ho : e.outbox = o) :
    Roomy s o ev.lsn x e (applyCustodyReconciled ev) := by
  refine from_decode nofun fun _ => ?_
  refine Lasts.roomy ?_ ho
  refine .bind ?_ fun _ => (Spacious.change _).lasts
  refine Proc.Ensures.ofExcept (fun _ _ h _ => h) fun _ st _ hst hcode => ?_
  unfold viewGroup at hst
  split_ifs at hst <;> (obtain rfl := Except.error.inj hst; cases hcode)

theorem roomy_applyEodMarked {x : Event} (ho : e.outbox = o) :
    Roomy s o ev.lsn x e (applyEodMarked ev) := by
  refine from_decode nofun fun _ => ?_
  refine Lasts.roomy ?_ ho
  exact .bind (.look _) fun _ => .bind (.look _) fun _ => .bind (.guard _ nofun) fun _ =>
    (Spacious.change _).lasts

/-- The part of an allocation between two accounts: the first position may take the last row, and
then the second is refused, known or not. -/
theorem roomy_moveAllocation (hs : s.Sound) (hp : InternTable.positions.Open s)
    (hlast : ¬ LastRow s) {a : TradeAllocated} {k : Fin 3} {de para t : ℕ} {r : TradeRow}
    (ht : s.tradeIndex.find a.tradeId = some t) (hr : s.trades[t]? = some r)
    (hstate : r.state = TradeState.executed.code)
    (hde : s.accountKeys[de]? = some a.fromAccount)
    (hpara : s.accountKeys[para]? = some a.toAccount) (hne : de ≠ para) :
    Roomy s o lsn (.tradeAllocated a) ⟨s, o⟩ (moveAllocation a k de para r.instrument t) := by
  have hinst := (hs.tradeRows r (List.mem_of_getElem? hr)).2.1
  have hdelt := lt_of_key hs.accounts hde
  have hparalt := lt_of_key hs.accounts hpara
  have htakes : ∀ {acct : ℕ}, acct = de ∨ acct = para →
      (Event.tradeAllocated a).TakesPosition s (acct, r.instrument) := by
    rintro acct (rfl | rfl)
    · exact ⟨.inl hde, t, r, ht, hr, rfl⟩
    · exact ⟨.inr hpara, t, r, ht, hr, rfl⟩
  have hone : ∀ {acct : ℕ}, acct = de ∨ acct = para →
      (acct, r.instrument) ∉ InternTable.positions.keys s →
        s.cap.positions.toNat < s.custody.length + 1 →
          (Event.tradeAllocated a).RunsOut s o lsn := by
    intro acct hacct hnew hfull
    refine .positions (List.nodup_singleton (acct, r.instrument)) (fun p hmem => ?_)
      hfull
    obtain rfl := List.mem_singleton.mp hmem
    exact ⟨htakes hacct, hnew⟩
  have hrest : ∀ (posDe posPara : ℕ) (eng : Engine), eng.outbox = o →
      Roomy s o lsn (.tradeAllocated a) eng (checkAllocation a k posDe posPara >>= fun _ =>
        modCustody posDe (allocateFrom a k) >>= fun _ => modCustody posPara (allocateTo a k) >>=
        fun _ => modAccount de (subPending k a.cashAmount) >>= fun _ =>
        modAccount para (addPending k a.cashAmount) >>= fun _ =>
        change (relinkTrade de para t) >>= fun _ => checkBuckets posDe >>= fun _ =>
        checkBuckets posPara) := by
    intro posDe posPara eng ho
    refine Lasts.roomy (o := o) ?_ ho
    refine .bind ?_ fun _ => .bind (.change _) fun _ => .bind (.change _) fun _ =>
      .bind (.change _) fun _ => .bind (.change _) fun _ => .bind (.change _) fun _ =>
        .bind (spacious_checkBuckets _) fun _ => (spacious_checkBuckets _).lasts
    exact .bind (.look _) fun _ => .bind (.look _) fun _ => .bind (.guard _ nofun) fun _ =>
      .guard _ nofun
  obtain ⟨p, hintDe⟩ | ⟨hnew, hfull⟩ | ⟨hnew, p, s₁, hintDe, hkeys⟩ :=
    internPosition_open hs hp (a := de) (by omega) hinst
  · -- the first position is known, and the second is answered as in `s`
    refine from_ask hintDe ?_
    obtain ⟨q, hintPara⟩ | ⟨hnew, hfull⟩ | ⟨-, q, s₂, hintPara, -⟩ :=
      internPosition_open hs hp (a := para) (by omega) hinst
    · refine from_ask hintPara (Proc.From.orFail (by simp) fun _ _ => ?_)
      exact Proc.From.orFail (by simp) fun _ _ => hrest _ _ _ rfl
    · refine from_ask (internPosition_full hs (Nat.le_of_lt_succ hfull) _ _)
        (Proc.From.orFail (by simp) fun _ _ => ?_)
      exact Proc.From.orFail (fun _ _ => hone (.inr rfl) hnew hfull) (by simp)
    · refine from_ask hintPara (Proc.From.orFail (by simp) fun _ _ => ?_)
      exact Proc.From.orFail (by simp) fun _ _ => hrest _ _ _ rfl
  · -- the first position is refused
    have hno := internPosition_full hs (Nat.le_of_lt_succ hfull) de r.instrument
    refine from_ask hno ?_
    refine Proc.From.act (Proc.From.orFail (fun _ _ => hone (.inl rfl) hnew hfull) (by simp))
  · -- the first position is opened, and the second is answered in the state with it
    refine from_ask hintDe ?_
    have hI := interned_of_internPosition hs (by omega) hinst hintDe
    have hs₁ := hI.sound
    have hlen : s₁.custody.length = s.custody.length + 1 := by
      have := congrArg List.length hkeys
      simpa [InternTable.positions] using this
    have hroom : s₁.cap.positions.toNat = s.cap.positions.toNat := by rw [hI.cap]
    rcases Nat.lt_or_ge s₁.custody.length s₁.cap.positions.toNat with hlt | hge
    · have hopen : InternTable.positions.Open s₁ := by
        refine .inr ?_
        rw [show (InternTable.positions.keys s₁).length = s₁.custody.length from List.length_map _]
        exact hlt
      obtain ⟨q, hintPara⟩ | ⟨-, hfull⟩ | ⟨-, q, s₂, hintPara, -⟩ :=
        internPosition_open hs₁ hopen (a := para) (by omega) hinst
      · refine from_ask hintPara (Proc.From.orFail (by simp) fun _ _ => ?_)
        exact Proc.From.orFail (by simp) fun _ _ => hrest _ _ _ rfl
      · omega
      · refine from_ask hintPara (Proc.From.orFail (by simp) fun _ _ => ?_)
        exact Proc.From.orFail (by simp) fun _ _ => hrest _ _ _ rfl
    · refine from_ask (internPosition_full hs₁ hge _ _) (Proc.From.orFail (by simp) fun _ _ => ?_)
      refine Proc.From.orFail (fun _ _ => ?_) (by simp)
      have hpair : (para, r.instrument) ≠ (de, r.instrument) :=
        fun h => hne (congrArg Prod.fst h).symm
      by_cases hknown : (para, r.instrument) ∈ InternTable.positions.keys s
      · refine absurd ⟨?_, r, List.mem_of_getElem? hr, hstate, de, ?_, para, ?_, hnew, hknown⟩ hlast
        · have hle : s₁.custody.length ≤ s₁.cap.positions.toNat := by
            simpa [positionKeys] using hs₁.positions.le
          omega
        · simpa [accountKeys] using (List.getElem?_eq_some_iff.mp hde).1
        · simpa [accountKeys] using (List.getElem?_eq_some_iff.mp hpara).1
      · refine .positions (show [(de, r.instrument), (para, r.instrument)].Nodup by simpa using hne)
          (fun p hmem => ?_) (by simp only [List.length_cons, List.length_nil]; omega)
        obtain rfl | rfl := List.mem_pair.mp hmem
        · exact ⟨htakes (.inl rfl), hnew⟩
        · exact ⟨htakes (.inr rfl), hknown⟩

/-- An allocation about what is known runs out of room for its positions or its update only, where
no row is the last one. -/
theorem roomy_applyTradeAllocated (hs : s.Sound) (ha : InternTable.accounts.Open s)
    (hp : InternTable.positions.Open s) (hlast : ¬ LastRow s)
    (hk : (Event.tradeAllocated (.ofBytes ev.payload)).KnownIn s) :
    Roomy s o ev.lsn (.tradeAllocated (.ofBytes ev.payload)) ⟨s, o⟩ (applyTradeAllocated ev) := by
  -- an account that is known is found without a new row
  have hknown : ∀ {doc : UInt64}, doc ∈ s.accountKeys →
      ∃ i, s.internAccount doc = (some i, s) ∧ s.accountKeys[i]? = some doc := by
    intro doc hdoc
    obtain ⟨i, hi⟩ := List.mem_iff_getElem?.mp hdoc
    obtain hnil | hlt := ha
    · rw [show s.accountKeys = [] from hnil] at hdoc
      exact absurd hdoc List.not_mem_nil
    · exact ⟨i, (InternTable.lawful_accounts hs).intern_known hlt hi, hi⟩
  refine from_decode nofun fun _ => ?_
  refine from_look fun found hfound => ?_
  obtain rfl := Except.ok.inj hfound
  refine Proc.From.orFail (fun _ => nofun) fun t ht => ?_
  refine from_row fun r hr => ?_
  refine Proc.From.query fun next hnext => ?_
  refine Proc.From.guard (fun _ => nofun) fun hne => ?_
  obtain ⟨hstate, rfl⟩ := nextOf_allocate hnext hne
  obtain ⟨de, hintDe, hde⟩ := hknown hk.1
  obtain ⟨para, hintPara, hpara⟩ := hknown hk.2
  refine from_ask hintDe (from_ask hintPara ?_)
  refine Proc.From.orFail (by simp) fun _ h => ?_
  obtain rfl := Option.some.inj h
  refine Proc.From.orFail (by simp) fun _ h => ?_
  obtain rfl := Option.some.inj h
  refine from_slot nofun fun k _ => ?_
  refine Proc.From.guard (fun _ => nofun) fun _ => ?_
  refine Proc.From.bind (R := fun _ _ => True) ?_ fun _ eng _ => ?_
  · split_ifs with hpair
    · exact roomy_moveAllocation hs hp hlast ht hr hstate hde hpara hpair
    · exact Proc.From.pure trivial
  · exact from_lastChange fun _ _ => trivial

/-- What an event is answered in a state with open tables. -/
theorem roomy_handler (hs : s.Sound) (ha : InternTable.accounts.Open s)
    (hi : InternTable.instruments.Open s) (hp : InternTable.positions.Open s)
    (hlast : ¬ LastRow s) {t : Tmpl} {x : Event} (hx : Event.ofPayload ev.payload t = some x)
    (hk : x.KnownIn s) : Roomy s o ev.lsn x ⟨s, o⟩ (handler ev t) := by
  cases t with
  | dayOpened => exact roomy_applyDayOpened rfl
  | tradeExecuted =>
    obtain rfl := Option.some.inj hx
    exact roomy_applyTradeExecuted hs ha hi hp hk
  | tradeAllocated =>
    obtain rfl := Option.some.inj hx
    exact roomy_applyTradeAllocated hs ha hp hlast hk
  | batchNetted =>
    obtain rfl := Option.some.inj hx
    exact roomy_applyBatchNetted hs ha hk
  | tradeSettled =>
    obtain rfl := Option.some.inj hx
    exact roomy_applyTradeSettled hs ha hi hk
  | corporateActionApplied =>
    obtain rfl := Option.some.inj hx
    exact roomy_applyCorporateAction hs ha hi hp hk
  | dividendPaid =>
    obtain rfl := Option.some.inj hx
    exact roomy_applyDividendPaid hs ha hk
  | closingPriceSet =>
    obtain rfl := Option.some.inj hx
    exact roomy_applyClosingPrice hs hi hk
  | custodyReconciled => exact roomy_applyCustodyReconciled rfl
  | eodMarked => exact roomy_applyEodMarked rfl

end Handlers

/-! ### The last row of the positions -/

section LastRow

variable {s : PartitionState}

/-- The allocation of an executed trade between two accounts, dated today. -/
def allocation (s : PartitionState) (r : TradeRow) (de para : UInt64) : TradeAllocated where
  tradeId := r.tradeId
  fromAccount := de
  toAccount := para
  qty := r.qty
  cashAmount := 0
  settlementDate := s.window 0
  side := r.side

/-- A sequence whose first part returns. -/
theorem bind_value {m : Apply α} {f : α → Apply β} {e e' : Engine} {a : α}
    (h : m e = .ok (.ok a, e')) : (m >>= f) e = f a e' := by
  rw [Proc.bind_run, h]

/-- A sequence whose first part is refused. -/
theorem bind_error {m : Apply α} {f : α → Apply β} {e e' : Engine} {st : Status}
    (h : m e = .ok (.error st, e')) : (m >>= f) e = .ok (.error st, e') := by
  rw [Proc.bind_run, h]

theorem ask_value {g : PartitionState → α × PartitionState} {o : Option Outbox} {a : α}
    {s' : PartitionState} (h : g s = (a, s')) : ask g ⟨s, o⟩ = .ok (.ok a, ⟨s', o⟩) := by
  simp only [ask, Proc.act, h]

theorem look_value {g : PartitionState → Exec α} {o : Option Outbox} {a : α} (h : g s = .ok a) :
    look g ⟨s, o⟩ = .ok (.ok a, ⟨s, o⟩) := by
  simp only [look, Proc.query, h]
  rfl

theorem lift_value {x : Exec α} {e : Engine} {a : α} (h : x = .ok a) :
    (Proc.lift x : Apply α) e = .ok (.ok a, e) := by
  rw [h]
  rfl

theorem guard_value {c : Prop} [Decidable c] {st : Status} {e : Engine} (h : c) :
    (Proc.guard c st : Apply PUnit) e = .ok (.ok ⟨⟩, e) := by
  rw [Proc.guard, if_pos h]
  rfl

theorem slot_value {d : DateYmd} {o : Option Outbox} {k : Fin 3} (h : s.window.slotOf d = some k) :
    slot d ⟨s, o⟩ = .ok (.ok k, ⟨s, o⟩) := by
  refine (bind_value (look_value (by rw [h]))).trans ?_
  rfl

/-- The second position is refused although it is known. -/
theorem applyTradeAllocated_lastRow (hs : s.Sound) (ha : InternTable.accounts.Open s)
    (hlen : s.custody.length + 1 = s.cap.positions.toNat) {t de para : ℕ} {r : TradeRow}
    {docDe docPara : UInt64} (hr : s.trades[t]? = some r)
    (hstate : r.state = TradeState.executed.code) (hde : s.accountKeys[de]? = some docDe)
    (hpara : s.accountKeys[para]? = some docPara)
    (hnew : (de, r.instrument) ∉ InternTable.positions.keys s)
    (hold : (para, r.instrument) ∈ InternTable.positions.keys s) :
    ∃ e, applyTradeAllocated ⟨0, 0, 3, (allocation s r docDe docPara).encode⟩ ⟨s, none⟩ =
      .ok (.error (.fail .arenaExhausted), e) := by
  set a := allocation s r docDe docPara with ha'
  have hinst := (hs.tradeRows r (List.mem_of_getElem? hr)).2.1
  have hfind : s.tradeIndex.find a.tradeId = some t := by
    refine (hs.trades.index.find _ t).mpr ?_
    rw [tradeKeys, List.getElem?_map, hr]
    rfl
  have hintern : ∀ {i : ℕ} {doc : UInt64}, s.accountKeys[i]? = some doc →
      s.internAccount doc = (some i, s) := by
    intro i doc hi
    obtain hnil | hlt := ha
    · rw [show s.accountKeys = [] from hnil] at hi
      cases hi
    · exact (InternTable.lawful_accounts hs).intern_known hlt hi
  have hslot : s.window.slotOf a.settlementDate = some 0 := if_pos rfl
  have hne : de ≠ para := by
    rintro rfl
    exact hnew hold
  have hdelt := lt_of_key hs.accounts hde
  have hkeys : (InternTable.positions.keys s).length = s.custody.length := List.length_map _
  -- the position of the first account is new and takes the last row
  obtain ⟨s₁, hintDe, hkeys₁⟩ := (InternTable.lawful_positions hs).intern_new
    (show _ < s.cap.positions.toNat by omega) (k := (de, r.instrument)) ⟨by omega, hinst⟩ hnew
  change s.internPosition de r.instrument = _ at hintDe
  have hI := interned_of_internPosition hs (by omega) hinst hintDe
  have hlen₁ : s₁.custody.length = s.custody.length + 1 := by
    have := congrArg List.length hkeys₁
    simpa [InternTable.positions] using this
  -- the position of the second is known, but the capacity is asked before the lookup
  have hfull : s₁.internPosition para r.instrument = (none, s₁) := by
    refine internPosition_full hI.sound ?_ _ _
    rw [hI.cap]
    omega
  have hdecode : decode .tradeAllocated TradeAllocated.ofBytes ⟨0, 0, 3, a.encode⟩ ⟨s, none⟩ =
      .ok (.ok a, ⟨s, none⟩) := by
    refine decode_eq_ok.mpr ⟨rfl, .inl ⟨?_, ?_⟩⟩
    · simp [TradeAllocated.encode, Tmpl.blockLength]
    · rw [TradeAllocated.ofBytes_encode]
  have hmove : moveAllocation a 0 de para r.instrument t ⟨s, none⟩ =
      .ok (.error (.fail .arenaExhausted), ⟨s₁, none⟩) := by
    refine (bind_value (ask_value hintDe)).trans ?_
    refine (bind_value (ask_value hfull)).trans ?_
    exact (bind_value rfl).trans (bind_error rfl)
  refine ⟨⟨s₁, none⟩, (bind_value hdecode).trans ?_⟩
  refine (bind_value (look_value (by rw [hfind]))).trans ?_
  refine (bind_value rfl).trans ?_
  refine (bind_value (look_value (rowAt_eq_ok.mpr hr))).trans ?_
  refine (bind_value (lift_value (by rw [hstate]; rfl))).trans ?_
  refine (bind_value rfl).trans ?_
  refine (bind_value (ask_value (hintern hde))).trans ?_
  refine (bind_value (ask_value (hintern hpara))).trans ?_
  refine (bind_value rfl).trans ((bind_value rfl).trans ?_)
  refine (bind_value (slot_value hslot)).trans ?_
  refine (bind_value (guard_value rfl)).trans ?_
  rw [if_pos hne]
  exact bind_error hmove

end LastRow

end Apply

/-! ### Stable interning -/

/-- A row number stands for an identity from its first appearance on, in each of the three tables,
and no event is refused for interning what it knows. -/
structure InternsStably (steps : List Step) (s : PartitionState) : Prop where
  accounts : InternTable.accounts.Stable steps s
  instruments : InternTable.instruments.Stable steps s
  positions : InternTable.positions.Stable steps s
  events : RoomForKnown s

/-- No table is exactly full of rows, and no allocation can make it so before it looks up the
other position. -/
structure TablesOpen (s : PartitionState) : Prop where
  accounts : InternTable.accounts.Open s
  instruments : InternTable.instruments.Open s
  positions : InternTable.positions.Open s
  allocations : ¬ LastRow s

/-- Where no table is exactly full, events about what is known do not run out of room for it. -/
theorem TablesOpen.roomForKnown {s : PartitionState} (h : TablesOpen s) (hs : s.Sound) :
    RoomForKnown s := by
  intro ev o st e x happ hst hx hk
  simp only [apply, bind, except_bind_eq_ok] at happ
  obtain ⟨⟨r, e₁⟩, hd, happ⟩ := happ
  obtain ⟨hr, -⟩ := Prod.mk.inj (Except.ok.inj happ)
  obtain ⟨st', rfl⟩ : ∃ st', r = .error st' := by
    rcases r with st' | u
    · exact ⟨st', rfl⟩
    · rw [← hr] at hst
      cases hst
  obtain rfl : st' = st := hr
  unfold Apply.dispatch at hd
  rcases ht : Tmpl.ofId ev.tmpl.toNat with _ | t <;> rw [ht] at hd
  · rw [LogRecord.event, ht] at hx
    cases hx
  · exact (roomy_handler hs h.accounts h.instruments h.positions h.allocations
      (event_eq_some ht hx) hk).error hd hst

/-- With one row left, the allocation from an account without a position would be refused for
interning what it knows. -/
theorem not_lastRow {s : PartitionState} (hs : s.Sound) (ha : InternTable.accounts.Open s)
    (hroom : RoomForKnown s) : ¬ LastRow s := by
  rintro ⟨hlen, r, hr, hstate, de, hde, para, hpara, hnew, hold⟩
  obtain ⟨t, ht⟩ := List.mem_iff_getElem?.mp hr
  have hkey : ∀ {i : ℕ} (hi : i < s.accounts.length),
      s.accountKeys[i]? = some s.accounts[i].document := by
    intro i hi
    rw [accountKeys, List.getElem?_map, List.getElem?_eq_getElem hi]
    rfl
  obtain ⟨e, happ⟩ := applyTradeAllocated_lastRow hs ha hlen ht hstate (hkey hde) (hkey hpara)
    hnew hold
  set a := allocation s r s.accounts[de].document s.accounts[para].document
  have hev : LogRecord.event ⟨0, 0, 3, a.encode⟩ = some (.tradeAllocated a) := by
    rw [LogRecord.event_eq (t := .tradeAllocated) rfl
      (by simp [TradeAllocated.encode, Tmpl.blockLength])]
    show some (Event.tradeAllocated (.ofBytes a.encode)) = _
    rw [TradeAllocated.ofBytes_encode]
  have hrun : apply ⟨s, none⟩ ⟨0, 0, 3, a.encode⟩ =
      .ok (.fail .arenaExhausted, { e with s := { e.s with appliedLsn := UInt64.ofNat 0 } }) := by
    show (applyTradeAllocated ⟨0, 0, 3, a.encode⟩ ⟨s, none⟩ >>= _) = _
    rw [happ]
    rfl
  have hout := hroom _ _ _ _ _ hrun rfl hev
    ⟨List.mem_of_getElem? (hkey hde), List.mem_of_getElem? (hkey hpara)⟩
  cases hout with
  | @positions _ new hnd hall hlt =>
    -- the one new position is that of the account the trade leaves
    have hsub : ∀ p ∈ new, p = (de, r.instrument) := by
      rintro ⟨acct, inst⟩ hp
      obtain ⟨⟨hacct, t', r', hfind, hr', hinst⟩, hno⟩ := hall _ hp
      have htkey : s.tradeKeys[t]? = some a.tradeId := by
        rw [tradeKeys, List.getElem?_map, ht]
        rfl
      obtain rfl := Option.some.inj (hfind.symm.trans ((hs.trades.index.find _ t).mpr htkey))
      obtain rfl := Option.some.inj (ht.symm.trans hr')
      obtain rfl : inst = r.instrument := hinst
      obtain hacct | hacct := hacct
      · have heq : acct = de := hs.account_inj hacct (hkey hde)
        rw [heq]
      · have heq : acct = para := hs.account_inj hacct (hkey hpara)
        exact absurd (heq ▸ hold) hno
    have hle : new.length ≤ 1 := by
      have hsubset : new ⊆ [(de, r.instrument)] := fun p hp => List.mem_singleton.mpr (hsub p hp)
      simpa using (List.Nodup.subperm hnd hsubset).length_le
    omega
  | outbox ho => cases ho

/-- **Interning.** In a state that a session reaches from an initialised one, interning is stable
exactly when no table is full of rows and no allocation can fill the table of positions under its
own feet. -/
theorem internsStably_iff {s₀ s : PartitionState} {arena arena₀ : Arena} {pid : UInt16}
    {c : PartitionCapacity} {steps : List Step}
    (hinit : blank.init arena pid c = .ok (true, s₀, arena₀)) (h : Session s₀ steps s) :
    InternsStably steps s ↔ TablesOpen s := by
  have hs₀ := sound_init hinit
  have hs := h.sound hs₀
  have hempty : InternTable.accounts.keys s₀ = [] ∧ InternTable.instruments.keys s₀ = [] ∧
      InternTable.positions.keys s₀ = [] := by
    obtain ⟨-, -, ⟨na, np, ni, nt, ng⟩, -, rfl⟩ := init_eq_ok hinit
    exact ⟨rfl, rfl, rfl⟩
  have hkept := fun x (hx : x ∈ steps) => h.keepsKeys hs₀ hx
  -- the rows of a table are those after some step
  have hlast : ∀ {κ : Type} (T : InternTable κ), T.keys s₀ = [] →
      (∀ t, KeepsKeys s t → T.keys s <+: T.keys t) →
      (∀ x ∈ steps, T.keys x.after <+: T.keys s) →
      T.keys s ≠ [] → ∃ x ∈ steps, T.keys x.after = T.keys s := by
    intro κ T hnil hto hfrom hne
    obtain ⟨-, hkeys⟩ | ⟨x, hx, hkeys⟩ := h.lastKeys hs₀
    · exact absurd (List.prefix_nil.mp (hnil ▸ hto s₀ hkeys)) hne
    · exact ⟨x, hx, ((hto _ hkeys).eq_of_length_le (hfrom x hx).length_le).symm⟩
  have haccounts := (InternTable.lawful_accounts hs).stable_iff (fun x hx => (hkept x hx).accounts)
    (hlast _ hempty.1 (fun _ h => h.accounts) fun x hx => (hkept x hx).accounts)
  have hinstruments := (InternTable.lawful_instruments hs).stable_iff
    (fun x hx => (hkept x hx).instruments)
    (hlast _ hempty.2.1 (fun _ h => h.instruments) fun x hx => (hkept x hx).instruments)
  have hpositions := (InternTable.lawful_positions hs).stable_iff
    (fun x hx => (hkept x hx).positions)
    (hlast _ hempty.2.2 (fun _ h => h.positions) fun x hx => (hkept x hx).positions)
  constructor
  · rintro ⟨ha, hi, hp, hroom⟩
    exact ⟨haccounts.mp ha, hinstruments.mp hi, hpositions.mp hp,
      not_lastRow hs (haccounts.mp ha) hroom⟩
  · intro hopen
    exact ⟨haccounts.mpr hopen.accounts, hinstruments.mpr hopen.instruments,
      hpositions.mpr hopen.positions, hopen.roomForKnown hs⟩

/-- The description of instrument zero, with a factor of one. -/
def describesZero : EventView :=
  ⟨1, 0, 8, List.replicate 24 0 ++ 1 :: List.replicate 39 0⟩

/-- With room for one instrument, the first description fills the table, and the instrument is not
answered any more. -/
theorem not_forall_internsStably :
    ¬ ∀ arena pid c s₀ arena₀ steps s, blank.init arena pid c = .ok (true, s₀, arena₀) →
      Session s₀ steps s → InternsStably steps s := by
  intro h
  have hst := (h ⟨2 ^ 16, 0, false, false⟩ 1 ⟨1, 1, 1, 1, 1, 1, 1, 1, 60⟩ _ _
    [⟨_, describesZero, .kOk, _⟩] _ rfl (.event .start (o := none) rfl)).instruments
  have hknown := hst.known _ List.mem_cons_self 0 0 rfl
  cases hknown

/-- With room for three of each, a purchase leaves every table open, and interning is stable. -/
theorem internsStably_iff_purchase :
    ∃ s₀ arena₀ s steps,
      blank.init ⟨2 ^ 16, 0, false, false⟩ 1 ⟨3, 3, 3, 3, 2, 2, 2, 2, 60⟩ = .ok (true, s₀, arena₀) ∧
      Session s₀ steps s ∧ steps.map Step.ev = onePurchase ∧ s.accountKeys = [1] ∧
      InternsStably steps s := by
  obtain ⟨s₀, arena₀, s, sts, hinit, hrun, hcap, haccounts, hinstruments, hpositions⟩ :
      ∃ s₀ arena₀ s sts,
        blank.init ⟨2 ^ 16, 0, false, false⟩ 1 ⟨3, 3, 3, 3, 2, 2, 2, 2, 60⟩ =
          .ok (true, s₀, arena₀) ∧
        applyAll s₀ (onePurchase.map (·, none)) = .ok (sts, s) ∧
        (s.cap.accounts, s.cap.instruments, s.cap.positions) = (3, 3, 3) ∧ s.accountKeys = [1] ∧
        InternTable.instruments.keys s = [1] ∧ InternTable.positions.keys s = [(0, 0)] :=
    ⟨_, _, _, _, rfl, rfl, rfl, rfl, rfl, rfl⟩
  obtain ⟨steps, hsession, hevs, -⟩ := session_of_applyAll hrun
  obtain ⟨hca, hcaps⟩ := Prod.mk.inj hcap
  obtain ⟨hci, hcp⟩ := Prod.mk.inj hcaps
  rw [List.map_map] at hevs
  refine ⟨s₀, arena₀, s, steps, hinit, hsession, hevs.trans (List.map_id _), haccounts,
    (internsStably_iff hinit hsession).mpr
      { accounts := .inr ?_, instruments := .inr ?_, positions := .inr ?_, allocations := ?_ }⟩
  · show s.accountKeys.length < s.cap.accounts.toNat
    rw [haccounts, hca]
    decide
  · show (InternTable.instruments.keys s).length < s.cap.instruments.toNat
    rw [hinstruments, hci]
    decide
  · show (InternTable.positions.keys s).length < s.cap.positions.toNat
    rw [hpositions, hcp]
    decide
  · rintro ⟨hrows, -⟩
    have hlen : s.custody.length = 1 := by
      rw [← show (InternTable.positions.keys s).length = s.custody.length from List.length_map _]
      exact congrArg List.length hpositions
    rw [hlen, hcp] at hrows
    exact absurd hrows (by decide)

end MotorRv
