import MotorRv.Core.Links

/-!
# Every run of a handler is an effect, or ended before one

Each handler is followed step by step from a sound state: the checks it passes are the conditions
of its effect, and where a check turns the event down nothing but interned rows and exception
records is left.

The rules in the middle are one for each part of a handler (`from_decode`, `from_row`, `from_slot`,
`from_advanceAccount` and so on). Each runs its part from a given state, names what it found, and
leaves two cases: the handler goes on with that value, or it ends there, in one of the ways that
`Ended` lists. A proof about a handler applies these rules in the order of its text, and in the end
has collected the arguments of the constructor of its effect.

The sound state enters where the code indexes a table by a number that it stored there before: only
because the number is a row of the table is there no abort. `apply_cases` joins the ten handlers.
-/

namespace MotorRv

open Lib PartitionState Apply

/-! ### Interned states -/

namespace Interned

variable {s s₁ : PartitionState}

theorem refl {s : PartitionState} (hs : s.Sound) : Interned s s :=
  ⟨⟨[], by simp⟩, ⟨[], by simp⟩, ⟨[], by simp⟩, rfl, hs⟩

theorem window (h : Interned s s₁) : s₁.window = s.window := by rw [h.rest]
theorem trades (h : Interned s s₁) : s₁.trades = s.trades := by rw [h.rest]
theorem cap (h : Interned s s₁) : s₁.cap = s.cap := by rw [h.rest]
theorem flags (h : Interned s s₁) : s₁.flags = s.flags := by rw [h.rest]
theorem id (h : Interned s s₁) : s₁.id = s.id := by rw [h.rest]
theorem tradeIndex (h : Interned s s₁) : s₁.tradeIndex = s.tradeIndex := by rw [h.rest]
theorem appliedActions (h : Interned s s₁) : s₁.appliedActions = s.appliedActions := by rw [h.rest]
theorem appliedIncome (h : Interned s s₁) : s₁.appliedIncome = s.appliedIncome := by rw [h.rest]
theorem businessDate (h : Interned s s₁) : s₁.businessDate = s.businessDate := by rw [h.rest]

/-- Interning adds rows, and leaves the dates. -/
theorem prevBusinessDate (h : Interned s s₁) : s₁.prevBusinessDate = s.prevBusinessDate := by
  rw [h.rest]

/-- Interning leaves what does not depend on the rows of accounts, instruments and positions. -/
theorem kept (h : Interned s s₁) : Kept s s₁ where
  custody := h.custody
  accounts := h.accounts
  instruments := h.instruments
  trades := h.trades
  tradeIndex := h.tradeIndex
  window := h.window
  businessDate := h.businessDate
  prevBusinessDate := h.prevBusinessDate
  appliedActions := h.appliedActions
  appliedIncome := h.appliedIncome
  flags := h.flags
  id := h.id
  cap := h.cap

theorem trans {s₂ : PartitionState} (h₁ : Interned s s₁) (h₂ : Interned s₁ s₂) :
    Interned s s₂ := by
  obtain ⟨nc, hnc, hc⟩ := h₁.custody
  obtain ⟨na, hna, ha⟩ := h₁.accounts
  obtain ⟨ni, hni, hi⟩ := h₁.instruments
  obtain ⟨mc, hmc, hc'⟩ := h₂.custody
  obtain ⟨ma, hma, ha'⟩ := h₂.accounts
  obtain ⟨mi, hmi, hi'⟩ := h₂.instruments
  refine ⟨⟨nc ++ mc, by rw [hmc, hnc, List.append_assoc], ?_⟩,
    ⟨na ++ ma, by rw [hma, hna, List.append_assoc], ?_⟩,
    ⟨ni ++ mi, by rw [hmi, hni, List.append_assoc], ?_⟩, ?_, h₂.sound⟩
  · exact List.forall_mem_append.mpr ⟨hc, hc'⟩
  · exact List.forall_mem_append.mpr ⟨ha, ha'⟩
  · exact List.forall_mem_append.mpr ⟨hi, hi'⟩
  · have hr₁ := h₁.rest
    have hr₂ := h₂.rest
    rw [hr₁] at hr₂
    exact hr₂

/-- The rows there were are there still. -/
theorem custodyRow (h : Interned s s₁) {p : ℕ} {c : CustodyRow} (hc : s.custody[p]? = some c) :
    s₁.custody[p]? = some c := by
  obtain ⟨new, hnew, -⟩ := h.custody
  rw [hnew, List.getElem?_append_left (List.getElem?_eq_some_iff.mp hc).1, hc]

/-- A row of an account stays where it is when others are interned. -/
theorem accountRow (h : Interned s s₁) {i : ℕ} {a : AccountRow} (ha : s.accounts[i]? = some a) :
    s₁.accounts[i]? = some a := by
  obtain ⟨new, hnew, -⟩ := h.accounts
  rw [hnew, List.getElem?_append_left (List.getElem?_eq_some_iff.mp ha).1, ha]

/-- A row of an instrument stays where it is when others are interned. -/
theorem instrumentRow (h : Interned s s₁) {i : ℕ} {r : InstrumentRow}
    (hr : s.instruments[i]? = some r) : s₁.instruments[i]? = some r := by
  obtain ⟨new, hnew, -⟩ := h.instruments
  rw [hnew, List.getElem?_append_left (List.getElem?_eq_some_iff.mp hr).1, hr]

/-- The number of a document stays when others are interned. -/
theorem accountKey (h : Interned s s₁) {i : ℕ} {doc : UInt64} (hk : s.accountKeys[i]? = some doc) :
    s₁.accountKeys[i]? = some doc := by
  rw [accountKeys, List.getElem?_map, Option.map_eq_some_iff] at hk ⊢
  obtain ⟨a, ha, rfl⟩ := hk
  exact ⟨a, h.accountRow ha, rfl⟩

/-- The number of an instrument stays when others are interned. -/
theorem instrumentKey (h : Interned s s₁) {i : ℕ} {k : UInt64}
    (hk : s.instrumentKeys[i]? = some k) : s₁.instrumentKeys[i]? = some k := by
  rw [instrumentKeys, List.getElem?_map, Option.map_eq_some_iff] at hk ⊢
  obtain ⟨r, hr, rfl⟩ := hk
  exact ⟨r, h.instrumentRow hr, rfl⟩

/-- A row past the old ones is an empty one. -/
theorem custody_cases (h : Interned s s₁) {p : ℕ} {c : CustodyRow}
    (hc : s₁.custody[p]? = some c) :
    s.custody[p]? = some c ∨ (s.custody.length ≤ p ∧ ∃ a i, c = CustodyRow.cleared a i) := by
  obtain ⟨new, hnew, hall⟩ := h.custody
  rw [hnew] at hc
  rcases Nat.lt_or_ge p s.custody.length with hlt | hge
  · rw [List.getElem?_append_left hlt] at hc
    exact .inl hc
  · rw [List.getElem?_append_right hge] at hc
    exact .inr ⟨hge, hall c (List.mem_of_getElem? hc)⟩

/-- A row after interning was there before, or is a cleared one behind the others. -/
theorem accounts_cases (h : Interned s s₁) {i : ℕ} {a : AccountRow}
    (ha : s₁.accounts[i]? = some a) :
    s.accounts[i]? = some a ∨ (s.accounts.length ≤ i ∧ ∃ doc, a = AccountRow.cleared doc) := by
  obtain ⟨new, hnew, hall⟩ := h.accounts
  rw [hnew] at ha
  rcases Nat.lt_or_ge i s.accounts.length with hlt | hge
  · rw [List.getElem?_append_left hlt] at ha
    exact .inl ha
  · rw [List.getElem?_append_right hge] at ha
    exact .inr ⟨hge, hall a (List.mem_of_getElem? ha)⟩

end Interned

/-- A key of a position names its account and its instrument. -/
theorem positionKey_inj {a i a' i' : ℕ} (ha : a < 2 ^ 32) (hi : i < 2 ^ 32) (ha' : a' < 2 ^ 32)
    (hi' : i' < 2 ^ 32) (h : positionKey a i = positionKey a' i') : a = a' ∧ i = i' := by
  have hval := congrArg UInt64.toNat h
  rw [positionKey, positionKey, UInt64.toNat_ofNat_of_lt', UInt64.toNat_ofNat_of_lt'] at hval
  · omega
  · simp only [UInt64.size]
    omega
  · simp only [UInt64.size]
    omega

/-- The owner of a row that a position key stands for. -/
theorem PartitionState.Sound.owner {s : PartitionState} (hs : s.Sound) {a i p : ℕ}
    (ha : a < 2 ^ 32) (hi : i < 2 ^ 32) (hk : s.positionKeys[p]? = some (positionKey a i)) :
    ∃ c, s.custody[p]? = some c ∧ c.account = a ∧ c.instrument = i := by
  rw [positionKeys, List.getElem?_map, Option.map_eq_some_iff] at hk
  obtain ⟨c, hc, hkey⟩ := hk
  obtain ⟨hca, hci⟩ := hs.custodyRows c (List.mem_of_getElem? hc)
  exact ⟨c, hc, positionKey_inj hca hci ha hi hkey⟩

/-- An account is refused with the state as it was, or it has its row, and nothing else was
touched. -/
theorem interned_internAccount {s : PartitionState} (hs : s.Sound) (doc : UInt64) :
    s.internAccount doc = (none, s) ∨ ∃ a s₁, s.internAccount doc = (some a, s₁) ∧
      Interned s s₁ ∧ s₁.accountKeys[a]? = some doc := by
  have hs' := (hs.internAccount doc).1
  obtain heq | ⟨i, hi, heq⟩ | ⟨-, -, t, heq, -⟩ := internAccount_cases hs doc
  · exact .inl heq
  · exact .inr ⟨i, s, heq, .refl hs, hi⟩
  · rw [heq] at hs'
    refine .inr ⟨_, _, heq, ⟨⟨[], by simp⟩, ⟨_, rfl, ?_⟩, ⟨[], by simp⟩, rfl, hs'⟩, ?_⟩
    · exact fun a ha => ⟨doc, List.mem_singleton.mp ha⟩
    · simp [accountKeys, AccountRow.cleared]

/-- An instrument is refused with the state as it was, or it has its row, and nothing else was
touched. -/
theorem interned_internInstrument {s : PartitionState} (hs : s.Sound) (id : UInt32) :
    s.internInstrument id = (none, s) ∨ ∃ i s₁, s.internInstrument id = (some i, s₁) ∧
      Interned s s₁ ∧ s₁.instrumentKeys[i]? = some (instrumentKey id) := by
  have hs' := (hs.internInstrument id).1
  obtain heq | ⟨i, hi, heq⟩ | ⟨-, -, t, heq, -⟩ := internInstrument_cases hs id
  · exact .inl heq
  · exact .inr ⟨i, s, heq, .refl hs, hi⟩
  · rw [heq] at hs'
    refine .inr ⟨_, _, heq, ⟨⟨[], by simp⟩, ⟨[], by simp⟩, ⟨_, rfl, ?_⟩, rfl, hs'⟩, ?_⟩
    · exact fun i hi => ⟨id, List.mem_singleton.mp hi⟩
    · simp [instrumentKeys, InstrumentRow.cleared]

/-- A position is refused with the state as it was, or it has its row, and nothing else was
touched. -/
theorem interned_internPosition {s : PartitionState} (hs : s.Sound) {a i : ℕ} (ha : a < 2 ^ 32)
    (hi : i < 2 ^ 32) :
    s.internPosition a i = (none, s) ∨ ∃ p s₁ c, s.internPosition a i = (some p, s₁) ∧
      Interned s s₁ ∧ s₁.custody[p]? = some c ∧ c.account = a ∧ c.instrument = i := by
  have hs' := hs.internPosition ha hi
  obtain heq | ⟨p, hp, heq⟩ | ⟨-, -, t, heq, -⟩ := internPosition_cases hs a i
  · exact .inl heq
  · obtain ⟨c, hc, howner⟩ := hs.owner ha hi hp
    exact .inr ⟨p, s, c, heq, .refl hs, hc, howner⟩
  · rw [heq] at hs'
    refine .inr ⟨_, _, CustodyRow.cleared a i, heq,
      ⟨⟨_, rfl, ?_⟩, ⟨[], by simp⟩, ⟨[], by simp⟩, rfl, hs'⟩, by simp, rfl, rfl⟩
    exact fun c hc => ⟨a, i, List.mem_singleton.mp hc⟩


/-! ### The exception queue -/

namespace Logged

variable {s s' : PartitionState}

theorem refl (s : PartitionState) : Logged s s := ⟨_, _, _, rfl⟩

/-- An exception that is pushed shows in the ring and its count only. -/
theorem pushException (s : PartitionState) (r : ExceptionRecord) :
    Logged s (s.pushException r false) := by
  unfold PartitionState.pushException
  split
  · exact refl s
  · exact ⟨_, _, _, rfl⟩

theorem custody (h : Logged s s') : s'.custody = s.custody := by
  obtain ⟨xs, n, d, rfl⟩ := h
  rfl

theorem accounts (h : Logged s s') : s'.accounts = s.accounts := by
  obtain ⟨xs, n, d, rfl⟩ := h
  rfl

theorem trades (h : Logged s s') : s'.trades = s.trades := by
  obtain ⟨xs, n, d, rfl⟩ := h
  rfl

theorem instruments (h : Logged s s') : s'.instruments = s.instruments := by
  obtain ⟨xs, n, d, rfl⟩ := h
  rfl

/-- The ring of exceptions does not depend on the trades. -/
theorem withTrades (h : Logged s s') (rows : List TradeRow) :
    Logged { s with trades := rows } { s' with trades := rows } := by
  obtain ⟨xs, n, d, rfl⟩ := h
  exact ⟨xs, n, d, rfl⟩

end Logged

/-! ### Rules for the parts of handlers -/

namespace Apply

variable {α β : Type} {s : PartitionState} {e : Engine} {Q : β → Engine → Prop}
  {E : Status → Engine → Prop}

/-- A handler decodes a block that is long enough, or is refused as too short. -/
theorem from_decode {t : Tmpl} {ofBytes : Bytes → α} {ev : EventView} {f : α → Apply β}
    (hE : E (.fail .shortPayload (UInt32.ofNat ev.payload.length)) e)
    (hf : t.blockLength ≤ ev.payload.length → Proc.From e (f (ofBytes ev.payload)) Q E) :
    Proc.From e (decode t ofBytes ev >>= f) Q E := by
  refine Proc.From.bind (R := fun a eng => eng = e ∧ a = ofBytes ev.payload ∧
    t.blockLength ≤ ev.payload.length) ?_ ?_
  · intro r e' h
    obtain ⟨rfl, ⟨hlen, rfl⟩ | ⟨-, rfl⟩⟩ := decode_eq_ok.mp h
    · exact ⟨rfl, rfl, hlen⟩
    · exact hE
  · rintro a eng ⟨rfl, rfl, hlen⟩
    exact hf hlen

theorem from_look {g : PartitionState → Exec α} {f : α → Apply β}
    (hf : ∀ a, g e.s = .ok a → Proc.From e (f a) Q E) : Proc.From e (look g >>= f) Q E :=
  Proc.From.query hf

/-- A handler that reads a row goes on with the row of the table. -/
theorem from_row {ρ : Type} {rows : PartitionState → List ρ} {i : ℕ} {f : ρ → Apply β}
    (hf : ∀ r, (rows e.s)[i]? = some r → Proc.From e (f r) Q E) :
    Proc.From e ((look fun s => rowAt (rows s) i) >>= f) Q E :=
  Proc.From.query fun r hr => hf r (rowAt_eq_ok.mp hr)

theorem from_change {g : PartitionState → Exec PartitionState} {f : PUnit → Apply β}
    (hf : ∀ s', g e.s = .ok s' → Proc.From { e with s := s' } (f ⟨⟩) Q E) :
    Proc.From e (change g >>= f) Q E := by
  refine Proc.From.update fun e' h => ?_
  obtain ⟨s', hs', rfl⟩ := map_eq_ok.mp h
  exact hf s' hs'

theorem from_lastChange {g : PartitionState → Exec PartitionState} {Q : PUnit → Engine → Prop}
    (hQ : ∀ s', g e.s = .ok s' → Q ⟨⟩ { e with s := s' }) : Proc.From e (change g) Q E := by
  intro r e' h
  obtain ⟨hg, rfl⟩ := Proc.update_eq_ok.mp h
  obtain ⟨s', hs', rfl⟩ := map_eq_ok.mp hg
  exact hQ s' hs'

/-- A handler that changes a position goes on with the changed row in its place. -/
theorem from_modCustody {i : ℕ} {g : CustodyRow → Exec CustodyRow} {f : PUnit → Apply β}
    (hf : ∀ c c', e.s.custody[i]? = some c → g c = .ok c' →
      Proc.From { e with s := { e.s with custody := e.s.custody.set i c' } } (f ⟨⟩) Q E) :
    Proc.From e (modCustody i g >>= f) Q E := by
  refine from_change fun s' h => ?_
  obtain ⟨rows, hrows, rfl⟩ := map_eq_ok.mp h
  obtain ⟨c, c', hc, hc', rfl⟩ := modRow_eq_ok.mp hrows
  exact hf c c' hc hc'

/-- A handler that changes an account goes on with the changed row in its place. -/
theorem from_modAccount {i : ℕ} {g : AccountRow → Exec AccountRow} {f : PUnit → Apply β}
    (hf : ∀ a a', e.s.accounts[i]? = some a → g a = .ok a' →
      Proc.From { e with s := { e.s with accounts := e.s.accounts.set i a' } } (f ⟨⟩) Q E) :
    Proc.From e (modAccount i g >>= f) Q E := by
  refine from_change fun s' h => ?_
  obtain ⟨rows, hrows, rfl⟩ := map_eq_ok.mp h
  obtain ⟨a, a', ha, ha', rfl⟩ := modRow_eq_ok.mp hrows
  exact hf a a' ha ha'

theorem from_ask {g : PartitionState → α × PartitionState} {f : α → Apply β} {a : α}
    {s' : PartitionState} (h : g e.s = (a, s')) (hf : Proc.From { e with s := s' } (f a) Q E) :
    Proc.From e (ask g >>= f) Q E := by
  refine Proc.From.act ?_
  simp only [h]
  exact hf

/-- A handler that looks up an account goes on with its row, in a state where at most that row is
new, or is refused for lack of room. -/
theorem from_account (hs : e.s.Sound) {doc : UInt64} {f : ℕ → Apply β}
    (hE : E (.fail .arenaExhausted) e)
    (hf : ∀ a s₁, Interned e.s s₁ → s₁.accountKeys[a]? = some doc →
      Proc.From { e with s := s₁ } (f a) Q E) : Proc.From e (account doc >>= f) Q E := by
  refine Proc.From.seq (R := fun a eng => ∃ s₁, eng = { e with s := s₁ } ∧ Interned e.s s₁ ∧
    s₁.accountKeys[a]? = some doc)
      (F := fun st eng => st = .fail .arenaExhausted ∧ eng = e) ?_ ?_ ?_
  · obtain heq | ⟨a, s₁, heq, hI, hk⟩ := interned_internAccount hs doc
    · exact from_ask heq (Proc.From.fail ⟨rfl, rfl⟩)
    · exact from_ask heq (Proc.From.pure ⟨s₁, rfl, hI, hk⟩)
  · rintro st eng ⟨rfl, rfl⟩
    exact hE
  · rintro a eng ⟨s₁, rfl, hI, hk⟩
    exact hf a s₁ hI hk

/-- A handler that looks up an instrument goes on with its row, or is refused for lack of room. -/
theorem from_instrument (hs : e.s.Sound) {id : UInt32} {f : ℕ → Apply β}
    (hE : E (.fail .arenaExhausted) e)
    (hf : ∀ i s₁, Interned e.s s₁ → s₁.instrumentKeys[i]? = some (instrumentKey id) →
      Proc.From { e with s := s₁ } (f i) Q E) : Proc.From e (instrument id >>= f) Q E := by
  refine Proc.From.seq (R := fun i eng => ∃ s₁, eng = { e with s := s₁ } ∧ Interned e.s s₁ ∧
    s₁.instrumentKeys[i]? = some (instrumentKey id))
    (F := fun st eng => st = .fail .arenaExhausted ∧ eng = e) ?_ ?_ ?_
  · obtain heq | ⟨i, s₁, heq, hI, hk⟩ := interned_internInstrument hs id
    · exact from_ask heq (Proc.From.fail ⟨rfl, rfl⟩)
    · exact from_ask heq (Proc.From.pure ⟨s₁, rfl, hI, hk⟩)
  · rintro st eng ⟨rfl, rfl⟩
    exact hE
  · rintro i eng ⟨s₁, rfl, hI, hk⟩
    exact hf i s₁ hI hk

/-- A handler that looks up a position goes on with its row, or is refused for lack of room. -/
theorem from_position (hs : e.s.Sound) {a i : ℕ} (ha : a < 2 ^ 32) (hi : i < 2 ^ 32)
    {f : ℕ → Apply β} (hE : E (.fail .arenaExhausted) e)
    (hf : ∀ p s₁ c, Interned e.s s₁ → s₁.custody[p]? = some c → c.account = a ∧ c.instrument = i →
      Proc.From { e with s := s₁ } (f p) Q E) : Proc.From e (position a i >>= f) Q E := by
  refine Proc.From.seq (R := fun p eng => ∃ s₁ c, eng = { e with s := s₁ } ∧ Interned e.s s₁ ∧
    s₁.custody[p]? = some c ∧ c.account = a ∧ c.instrument = i)
    (F := fun st eng => st = .fail .arenaExhausted ∧ eng = e) ?_ ?_ ?_
  · obtain heq | ⟨p, s₁, c, heq, hI, hc, howner⟩ := interned_internPosition hs ha hi
    · exact from_ask heq (Proc.From.fail ⟨rfl, rfl⟩)
    · exact from_ask heq (Proc.From.pure ⟨s₁, c, rfl, hI, hc, howner⟩)
  · rintro st eng ⟨rfl, rfl⟩
    exact hE
  · rintro p eng ⟨s₁, c, rfl, hI, hc, howner⟩
    exact hf p s₁ c hI hc howner

/-- A handler that looks up a date goes on with its slot, or is refused as outside of the window. -/
theorem from_slot {d : DateYmd} {f : Fin 3 → Apply β}
    (hE : E (.fail .outsideSettlementWindow d) e)
    (hf : ∀ k, e.s.window.slotOf d = some k → Proc.From e (f k) Q E) :
    Proc.From e (slot d >>= f) Q E := by
  refine Proc.From.seq (R := fun k eng => eng = e ∧ e.s.window.slotOf d = some k)
    (F := fun st eng => st = .fail .outsideSettlementWindow d ∧ eng = e) ?_ ?_ ?_
  · refine from_look fun o ho => ?_
    obtain rfl := Except.ok.inj ho
    rcases hk : e.s.window.slotOf d with _ | k
    · exact Proc.From.fail ⟨rfl, rfl⟩
    · exact Proc.From.pure ⟨rfl, rfl⟩
  · rintro st eng ⟨rfl, rfl⟩
    exact hE
  · rintro k eng ⟨rfl, hk⟩
    exact hf k hk

/-- A handler that advances trades goes on with the rows that the walk leaves. -/
theorem from_advanceAccount {acct : ℕ} {covered : TradeRow → Bool} {g : TradeTrigger}
    {f : ℕ → Apply β} (hf : ∀ a n rows, e.s.accounts[acct]? = some a →
      advance covered g e.s.trades.length a.firstTrade e.s.trades = .ok (n, rows) →
      Proc.From { e with s := { e.s with trades := rows } } (f n) Q E) :
    Proc.From e (advanceAccount acct covered g >>= f) Q E := by
  refine Proc.From.bind (R := fun n eng => ∃ a rows, e.s.accounts[acct]? = some a ∧
    advance covered g e.s.trades.length a.firstTrade e.s.trades = .ok (n, rows) ∧
    eng = { e with s := { e.s with trades := rows } }) ?_ ?_
  · intro r e' h
    simp only [advanceAccount, bind, except_bind_eq_ok] at h
    obtain ⟨a, ha, ⟨n, rows⟩, hadv, h⟩ := h
    obtain ⟨rfl, rfl⟩ := Prod.mk.inj (Except.ok.inj h)
    exact ⟨a, rows, rowAt_eq_ok.mp ha, hadv, rfl⟩
  · rintro n eng ⟨a, rows, ha, hadv, rfl⟩
    exact hf a n rows ha hadv

/-- Publishing changes the outbox only. -/
theorem from_publicaPosicao {ev : EventView} {pos : ℕ} {Q : PUnit → Engine → Prop}
    (hE : ∀ eng, eng.s = e.s → E (.fail .arenaExhausted (UInt32.ofNat pos)) eng)
    (hQ : ∀ eng, eng.s = e.s → Q ⟨⟩ eng) : Proc.From e (publicaPosicao ev pos) Q E := by
  intro r e' h
  unfold publicaPosicao at h
  split at h
  · obtain ⟨rfl, rfl⟩ := Prod.mk.inj (Except.ok.inj h)
    exact hQ _ rfl
  · simp only [bind, except_bind_eq_ok] at h
    obtain ⟨c, -, a, -, i, -, ⟨st, o⟩, -, h⟩ := h
    split_ifs at h
    · obtain ⟨rfl, rfl⟩ := Prod.mk.inj (Except.ok.inj h)
      exact hQ _ rfl
    · obtain ⟨rfl, rfl⟩ := Prod.mk.inj (Except.ok.inj h)
      exact hE _ rfl

/-- The check after a handler fails only where some bucket is negative. -/
theorem checkBuckets_from {pos : ℕ} : Proc.From e (checkBuckets pos) (fun _ eng => eng = e)
    (fun st eng => st = .fail .stateCorrupt ∧ eng = e ∧
      ∃ c ∈ e.s.custody, c.bucketsNonNegative = false) := by
  refine from_row fun c hc => ?_
  by_cases hgood : c.bucketsNonNegative = true
  · rw [Proc.guard, if_pos hgood]
    exact Proc.From.pure rfl
  · rw [Proc.guard, if_neg hgood]
    exact Proc.From.fail ⟨rfl, rfl, c, List.mem_of_getElem? hc, by simpa using hgood⟩

/-- The check in the middle of a handler. -/
theorem from_checkBuckets {pos : ℕ} {f : PUnit → Apply β}
    (hE : (∃ c ∈ e.s.custody, c.bucketsNonNegative = false) → E (.fail .stateCorrupt) e)
    (hf : Proc.From e (f ⟨⟩) Q E) : Proc.From e (checkBuckets pos >>= f) Q E := by
  refine Proc.From.seq checkBuckets_from ?_ ?_
  · rintro st eng ⟨rfl, rfl, hbad⟩
    exact hE hbad
  · rintro _ eng rfl
    exact hf

/-- A state byte that has a meaning is advanced as the table says. -/
theorem nextOf_eq_ok {b : UInt8} {g : TradeTrigger} {st : TradeState} :
    nextOf b g = .ok st ↔ ∃ x, TradeState.ofCode b = some x ∧ st = nextState x g := by
  unfold nextOf
  cases TradeState.ofCode b with
  | none => simp
  | some x => simp [eq_comm]

/-! ### Handlers -/

/-- From `e` the procedure has the effect of the event on `s`, or it ended without. -/
def Performs (s : PartitionState) (ev : EventView) (e : Engine) (m : Apply PUnit) : Prop :=
  Proc.From e m (fun _ eng => ∃ x, LogRecord.event ev = some x ∧ Effect s x eng.s)
    (fun st eng => Ended s ev st eng.s)

/-- A record whose template is known and whose block is long enough is an event. -/
theorem LogRecord.event_eq {ev : EventView} {t : Tmpl} (ht : Tmpl.ofId ev.tmpl.toNat = some t)
    (hlen : t.blockLength ≤ ev.payload.length) :
    LogRecord.event ev = Event.ofPayload ev.payload t := by
  unfold LogRecord.event
  simp only [ht]
  rw [if_pos hlen]

/-- The end of the handlers that check and publish a position. -/
theorem performs_tail {ev : EventView} {pos : ℕ} {x : Event} (hev : LogRecord.event ev = some x)
    (hmoves : x.moves = true) (heff : Effect s x e.s) :
    Performs s ev e (checkBuckets pos >>= fun _ => publicaPosicao ev pos) := by
  refine from_checkBuckets (fun hbad => .corrupt hev hmoves heff hbad) ?_
  refine from_publicaPosicao (fun eng heng => ?_) fun eng heng => ?_
  · rw [heng]
    exact .unpublished hev hmoves heff
  · rw [heng]
    exact ⟨x, hev, heff⟩

/-- Where it is accepted, the opening of a day has its effect. -/
theorem performs_applyDayOpened {ev : EventView} (ht : Tmpl.ofId ev.tmpl.toNat = some .dayOpened) :
    Performs e.s ev e (applyDayOpened ev) := by
  refine from_decode (.turned (.refl _) rfl) fun hlen => ?_
  have hev := LogRecord.event_eq ht hlen
  refine Proc.From.guard (fun _ => .turned (.refl _) rfl) fun hdate => ?_
  refine from_look fun today htoday => ?_
  obtain rfl := Except.ok.inj htoday
  refine Proc.From.guard (fun _ => .turned (.refl _) rfl) fun hnext => ?_
  exact from_lastChange fun s' hs' => ⟨_, hev, .dayOpened hdate hnext hs'⟩

/-- Where it is accepted, an execution has its effect. -/
theorem performs_applyTradeExecuted (hs : e.s.Sound) {ev : EventView}
    (ht : Tmpl.ofId ev.tmpl.toNat = some .tradeExecuted) :
    Performs e.s ev e (applyTradeExecuted ev) := by
  refine from_decode (.turned (.refl _) rfl) fun hlen => ?_
  have hev := LogRecord.event_eq ht hlen
  refine from_look fun full hfull => ?_
  obtain rfl := Except.ok.inj hfull
  refine Proc.From.guard (fun _ => .turned (.refl _) rfl) fun hroom => ?_
  have hroom : e.s.trades.length < e.s.cap.trades.toNat := by
    rw [← hs.table_trades]
    simpa using hroom
  refine from_look fun known hknown => ?_
  obtain rfl := Except.ok.inj hknown
  refine Proc.From.guard (fun hin => ?_) fun hnew => ?_
  · refine .executedBefore hev ?_
    obtain ⟨i, hi⟩ := Option.isSome_iff_exists.mp (Bool.not_eq_false _ ▸ hin)
    exact List.mem_of_getElem? ((hs.trades.index.find _ i).mp hi)
  have hnew : (TradeExecuted.ofBytes ev.payload).tradeId ∉ e.s.tradeKeys := by
    intro hmem
    obtain ⟨i, hi⟩ := List.mem_iff_getElem?.mp hmem
    rw [DenseIndex.contains, (hs.trades.index.find _ i).mpr hi] at hnew
    cases hnew
  refine from_account hs (.turned (.refl _) rfl) fun acct s₁ hI₁ hacct => ?_
  refine from_instrument hI₁.sound (.turned hI₁.kept rfl) fun inst s₂ hI₂ hinst => ?_
  -- both keys are in the tables from here on, whatever becomes of the event
  have hI := hI₁.trans hI₂
  refine from_row fun i hi => ?_
  refine Proc.From.guard (fun _ => .turned hI.kept rfl) fun hfactor => ?_
  refine from_slot (.turned hI.kept rfl) fun k hk => ?_
  have halt := lt_of_key hI₁.sound.accounts hacct
  have hilt := lt_of_key hI₂.sound.instruments hinst
  refine from_position hI.sound (by omega) (by omega) (.turned hI.kept rfl)
    fun pos s₃ c hI₃ hc howner => ?_
  -- the last interning; the checks that follow write nothing
  have hI := hI.trans hI₃
  refine Proc.From.guard (fun _ => .turned hI.kept rfl) fun hqty => ?_
  refine Proc.From.guard (fun _ => .turned hI.kept rfl) fun _ => ?_
  refine Proc.From.guard (fun _ => .turned hI.kept rfl) fun _ => ?_
  refine Proc.From.query fun gross hgross => ?_
  refine Proc.From.orFail (fun _ => .turned hI.kept rfl) fun fees hfees => ?_
  refine from_row fun c₁ hc₁ => ?_
  obtain rfl := Option.some.inj (hc.symm.trans hc₁)
  refine Proc.From.guard (fun _ => .turned hI.kept rfl) fun hshort => ?_
  refine Proc.From.query fun cash hcash => ?_
  refine from_modCustody fun c₂ c' hc₂ hc' => ?_
  obtain rfl := Option.some.inj (hc.symm.trans hc₂)
  refine from_modAccount fun a a' ha ha' => ?_
  refine from_change fun s₄ h₄ => ?_
  simp only [insertTrade, bind, except_bind_eq_ok] at h₄
  obtain ⟨a₁, ha₁, h₄⟩ := h₄
  obtain rfl := Except.ok.inj h₄
  have halen := (List.getElem?_eq_some_iff.mp ha).1
  -- the trade goes to the front of the list of the account as it was just written
  obtain rfl : a' = a₁ := by
    have := rowAt_eq_ok.mp ha₁
    rw [List.getElem?_set_self halen] at this
    exact Option.some.inj this
  refine performs_tail hev rfl ?_
  have heff := Effect.tradeExecuted hI hroom hnew
    (hI₃.accountKey (hI₂.accountKey hacct)) (hI₃.instrumentKey hinst) (hI₃.instrumentRow hi) hfactor
    (by rw [hI₂.window, hI₁.window] at hk; exact hk) hc howner hqty hgross hfees hshort hcash hc'
    ha ha'
  simpa [newTrade, nextState, hI.trades, hI.tradeIndex] using heff

/-! #### Allocation -/

/-- A trade that can be allocated was executed. -/
theorem nextOf_allocate {b : UInt8} {st : TradeState} (h : nextOf b .allocate = .ok st)
    (hne : st ≠ .none) : b = TradeState.executed.code ∧ st = .allocated := by
  obtain ⟨x, hx, rfl⟩ := nextOf_eq_ok.mp h
  obtain rfl := TradeState.code_of_ofCode hx
  cases x with
  | executed => exact ⟨rfl, rfl⟩
  | _ => exact absurd rfl hne

/-- The part of an allocation behind its checks: the position of the destination, the buckets, the
money, and the trade under its new account. -/
theorem from_moveAllocation {ev : EventView} {a : TradeAllocated} {k : Fin 3} {de para t : ℕ}
    {r : TradeRow} (hev : LogRecord.event ev = some (.tradeAllocated a)) (hI : Interned s e.s)
    (ht : s.tradeIndex.find a.tradeId = some t) (hr : s.trades[t]? = some r)
    (hstate : r.state = TradeState.executed.code)
    (hfrom : e.s.accountKeys[de]? = some a.fromAccount)
    (hto : e.s.accountKeys[para]? = some a.toAccount) (hne : de ≠ para)
    (hk : s.window.slotOf a.settlementDate = some k) (hqty : a.qty = r.qty) :
    Proc.From e (moveAllocation a k de para r.instrument t)
      (fun _ eng => ∃ r', eng.s.trades[t]? = some r' ∧ Effect s (.tradeAllocated a)
        { eng.s with trades := eng.s.trades.set t { r' with state := TradeState.allocated.code } })
      (fun st eng => Ended s ev st eng.s) := by
  have hdelt := lt_of_key hI.sound.accounts hfrom
  have hparalt := lt_of_key hI.sound.accounts hto
  have hinstlt := (hI.sound.tradeRows r (by rw [hI.trades]; exact List.mem_of_getElem? hr)).2.1
  have hturn : ∀ {d : UInt32} {s'}, Interned e.s s' →
      Ended s ev (.fail .arenaExhausted d) s' := fun h => .turned (hI.trans h).kept rfl
  obtain heq₁ | ⟨posDe, s₁, c₁, heq₁, hI₁, hc₁, how₁⟩ :=
    interned_internPosition hI.sound (a := de) (i := r.instrument) (by omega) hinstlt
  · refine from_ask heq₁ ?_
    obtain heq₂ | ⟨posPara, s₂, c₂, heq₂, hI₂, -⟩ :=
      interned_internPosition hI.sound (a := para) (i := r.instrument) (by omega) hinstlt
    · exact from_ask heq₂ (Proc.From.orFail (fun _ => hturn (.refl hI.sound)) (by simp))
    · exact from_ask heq₂ (Proc.From.orFail (fun _ => hturn hI₂) (by simp))
  refine from_ask heq₁ ?_
  obtain heq₂ | ⟨posPara, s₂, c₂, heq₂, hI₂, hc₂, how₂⟩ :=
    interned_internPosition hI₁.sound (a := para) (i := r.instrument) (by omega) hinstlt
  · refine from_ask heq₂ (Proc.From.orFail (by simp) fun _ _ => ?_)
    exact Proc.From.orFail (fun _ => hturn hI₁) (by simp)
  refine from_ask heq₂ (Proc.From.orFail (by simp) fun _ hde => ?_)
  obtain rfl := Option.some.inj hde
  refine Proc.From.orFail (by simp) fun _ hpara => ?_
  obtain rfl := Option.some.inj hpara
  have hI₂' := (hI.trans hI₁).trans hI₂
  have hc₁' := hI₂.custodyRow hc₁
  -- the checks before the move
  refine Proc.From.seq (R := fun _ eng => eng = { e with s := s₂ } ∧
      ¬ (if a.side = kSideBuy then c₁.pendingBuy k < a.qty else c₁.pendingSell k < a.qty) ∧
      (a.side = kSideBuy ∨ c₂.shortAllowed = true ∨ ¬ c₂.available < a.qty))
    (F := fun st eng => Ended s ev st eng.s) ?_ (fun _ _ h => h) ?_
  · refine from_row fun c hc => from_row fun c' hc' => ?_
    obtain rfl := Option.some.inj (hc₁'.symm.trans hc)
    obtain rfl := Option.some.inj (hc₂.symm.trans hc')
    refine Proc.From.guard (fun _ => .turned hI₂'.kept rfl) fun hpend => ?_
    intro res e' h
    obtain ⟨rfl, ⟨hshort, rfl⟩ | ⟨-, rfl⟩⟩ := Proc.guard_eq_ok.mp h
    · exact ⟨rfl, hpend, hshort⟩
    · exact .turned hI₂'.kept rfl
  rintro _ eng ⟨rfl, hpend, hshort⟩
  -- the move
  have hposne : posDe ≠ posPara := by
    rintro rfl
    obtain rfl := Option.some.inj (hc₁'.symm.trans hc₂)
    exact hne (how₁.1.symm.trans how₂.1)
  refine from_modCustody fun d₁ d₁' hd₁ hd₁' => ?_
  obtain rfl := Option.some.inj (hc₁'.symm.trans hd₁)
  refine from_modCustody fun d₂ d₂' hd₂ hd₂' => ?_
  obtain rfl : c₂ = d₂ := by
    rw [List.getElem?_set_ne hposne] at hd₂
    exact Option.some.inj (hc₂.symm.trans hd₂)
  refine from_modAccount fun a₁ a₁' ha₁ ha₁' => ?_
  refine from_modAccount fun a₂ a₂' ha₂ ha₂' => ?_
  rw [List.getElem?_set_ne hne] at ha₂
  refine from_change fun s₃ hlink => ?_
  obtain ⟨r', hr'⟩ : ∃ r', s₃.trades[t]? = some r' := by
    have h := hlink
    simp only [relinkTrade, bind, except_bind_eq_ok] at h
    obtain ⟨⟨b, s₄⟩, -, a₃, -, rows, hrows, h⟩ := h
    obtain rfl := Except.ok.inj h
    obtain ⟨q, q', hq, -, rfl⟩ := modRow_eq_ok.mp hrows
    exact ⟨q', List.getElem?_set_self (List.getElem?_eq_some_iff.mp hq).1⟩
  have heff := Effect.allocated hI₂' ht hr hstate
    (hI₂.accountKey (hI₁.accountKey hfrom)) (hI₂.accountKey (hI₁.accountKey hto)) hne hk hqty
    hc₁' how₁ hc₂ how₂ hpend hshort hd₁' hd₂' ha₁ ha₁' ha₂ ha₂' hlink hr'
  have hstate' : r'.state = TradeState.executed.code := by
    obtain ⟨-, ⟨q, hq, hrows⟩, -⟩ := relinkTrade_rows hlink
    obtain rfl := Option.some.inj (hr.symm.trans (hI₂'.trades ▸ hq))
    have hi := congrArg (fun l => (l.map TradeRow.state)[t]?) hrows
    simp only [List.map_map, List.getElem?_map, hr',
      List.getElem?_set_self (List.getElem?_eq_some_iff.mp hq).1, Option.map_some,
      Option.some.injEq] at hi
    exact hi.trans hstate
  refine from_checkBuckets (fun hbad => .corruptMove hev heff ht hr' hbad hstate') ?_
  refine checkBuckets_from.mono ?_ ?_
  · rintro _ eng rfl
    exact ⟨r', hr', heff⟩
  · rintro st eng ⟨rfl, rfl, hbad⟩
    exact .corruptMove hev heff ht hr' hbad hstate'

/-- Where it is accepted, an allocation has its effect. -/
theorem performs_applyTradeAllocated (hs : e.s.Sound) {ev : EventView}
    (htmpl : Tmpl.ofId ev.tmpl.toNat = some .tradeAllocated) :
    Performs e.s ev e (applyTradeAllocated ev) := by
  refine from_decode (.turned (.refl _) rfl) fun hlen => ?_
  have hev := LogRecord.event_eq htmpl hlen
  refine from_look fun found hfound => ?_
  obtain rfl := Except.ok.inj hfound
  refine Proc.From.orFail (fun _ => .turned (.refl _) rfl) fun t ht => ?_
  refine from_row fun r hr => ?_
  refine Proc.From.query fun next hnext => ?_
  refine Proc.From.guard (fun _ => .turned (.refl _) rfl) fun hne => ?_
  obtain ⟨hstate, rfl⟩ := nextOf_allocate hnext hne
  -- both accounts are interned before either answer is looked at
  obtain heq₁ | ⟨de, s₁, heq₁, hI₁, hfrom⟩ :=
    interned_internAccount hs (TradeAllocated.ofBytes ev.payload).fromAccount
  · refine from_ask heq₁ ?_
    obtain heq₂ | ⟨para, s₂, heq₂, hI₂, -⟩ :=
      interned_internAccount hs (TradeAllocated.ofBytes ev.payload).toAccount
    · exact from_ask heq₂ (Proc.From.orFail (fun _ => .turned (.refl _) rfl) (by simp))
    · exact from_ask heq₂ (Proc.From.orFail (fun _ => .turned hI₂.kept rfl) (by simp))
  refine from_ask heq₁ ?_
  obtain heq₂ | ⟨para, s₂, heq₂, hI₂, hto⟩ :=
    interned_internAccount hI₁.sound (TradeAllocated.ofBytes ev.payload).toAccount
  · refine from_ask heq₂ (Proc.From.orFail (by simp) fun _ _ => ?_)
    exact Proc.From.orFail (fun _ => .turned hI₁.kept rfl) (by simp)
  refine from_ask heq₂ (Proc.From.orFail (by simp) fun _ hde => ?_)
  obtain rfl := Option.some.inj hde
  refine Proc.From.orFail (by simp) fun _ hpara => ?_
  obtain rfl := Option.some.inj hpara
  have hI := hI₁.trans hI₂
  refine from_slot (.turned hI.kept rfl) fun k hk => ?_
  rw [hI.window] at hk
  refine Proc.From.guard (fun _ => .turned hI.kept rfl) fun hqty => ?_
  have hfrom := hI₂.accountKey hfrom
  -- either way the last step writes the new state of the trade
  refine Proc.From.bind (R := fun _ eng => ∃ r', eng.s.trades[t]? = some r' ∧
    Effect e.s (.tradeAllocated (.ofBytes ev.payload))
      { eng.s with trades := eng.s.trades.set t { r' with state := TradeState.allocated.code } })
    ?_ ?_
  · by_cases hde : de = para
    · rw [if_neg (not_not.mpr hde)]
      subst hde
      have heff := Effect.allocatedInPlace hI ht hr hstate hfrom hto hk hqty
      refine Proc.From.pure ⟨r, by rw [hI.trades]; exact hr, ?_⟩
      rw [hI.trades]
      exact heff
    · rw [if_pos hde]
      exact from_moveAllocation hev hI ht hr hstate hfrom hto hde hk hqty
  · rintro _ eng ⟨r', hr', heff⟩
    refine from_lastChange fun s' hs' => ?_
    obtain ⟨rows, hrows, rfl⟩ := map_eq_ok.mp hs'
    obtain ⟨q, q', hq, hq', rfl⟩ := modRow_eq_ok.mp hrows
    obtain rfl := Option.some.inj (hr'.symm.trans hq)
    obtain rfl := Except.ok.inj hq'
    exact ⟨_, hev, heff⟩

/-- The errors of a repeated group. -/
theorem plain_viewGroup {b : Bytes} {st : Status} (h : viewGroup b = .error st) :
    st.code.plain = true := by
  unfold viewGroup at h
  split_ifs at h <;> (obtain rfl := Except.error.inj h; rfl)

/-! #### Netting and settlement -/

/-- Where it is accepted, a netting has its effect. -/
theorem performs_applyBatchNetted (hs : e.s.Sound) {ev : EventView}
    (htmpl : Tmpl.ofId ev.tmpl.toNat = some .batchNetted) :
    Performs e.s ev e (applyBatchNetted ev) := by
  refine from_decode (.turned (.refl _) rfl) fun hlen => ?_
  have hev := LogRecord.event_eq htmpl hlen
  refine from_account hs (.turned (.refl _) rfl) fun acct s₁ hI hacct => ?_
  refine from_slot (.turned hI.kept rfl) fun k hk => ?_
  rw [hI.window] at hk
  refine from_row fun a ha => ?_
  refine Proc.From.bind (R := fun _ eng => eng = { e with s := s₁ } ∧
    a.pending k = (BatchNetted.ofBytes ev.payload).netAmount) ?_ ?_
  · split_ifs with hmis
    · refine from_change fun s₂ hs₂ => ?_
      obtain rfl := Except.ok.inj hs₂
      exact Proc.From.fail (.turned (hI.kept.pushException _) rfl)
    · exact Proc.From.pure ⟨rfl, not_not.mp hmis⟩
  rintro _ eng ⟨rfl, hnet⟩
  refine from_advanceAccount fun a' n rows ha' hadv => ?_
  obtain rfl := Option.some.inj (ha.symm.trans ha')
  rw [hI.trades] at hadv
  have heff : ∀ s', Logged { s₁ with trades := rows } s' →
      Effect e.s (.batchNetted (.ofBytes ev.payload)) s' :=
    fun s' hlog => .batchNetted hI hacct ha hk hnet hadv hlog
  split_ifs
  · refine from_lastChange fun s₂ hs₂ => ?_
    obtain rfl := Except.ok.inj hs₂
    exact ⟨_, hev, heff _ (Logged.pushException _ _)⟩
  · exact Proc.From.pure ⟨_, hev, heff _ (Logged.refl _)⟩

/-- A settlement changes one position and one account by its outcome, and pushes an exception at
most. -/
theorem from_settleBuckets {ev : EventView} {t : TradeSettled} {acct pos : ℕ} {c : CustodyRow}
    (hI : Interned s e.s) (hc : e.s.custody[pos]? = some c) (outcome : SettleOutcome) :
    Proc.From e (settleBuckets t acct pos outcome)
      (fun _ eng => ∃ a c' a', e.s.accounts[acct]? = some a ∧
        Outcome s.window t c a outcome c' a' ∧ a'.firstTrade = a.firstTrade ∧
        Logged { e.s with
          custody := e.s.custody.set pos c'
          accounts := e.s.accounts.set acct a' } eng.s)
      (fun st eng => Ended s ev st eng.s) := by
  cases outcome with
  | settled =>
    -- both outcomes of the window ask for its slot first; the row is read twice
    refine from_slot (.turned hI.kept rfl) fun k hk => from_row fun c₁ hc₁ => ?_
    rw [hI.window] at hk
    obtain rfl := Option.some.inj (hc.symm.trans hc₁)
    refine Proc.From.guard (fun _ => .turned hI.kept rfl) fun hq => ?_
    refine from_modCustody fun c₂ c' hc₂ hc' => ?_
    obtain rfl := Option.some.inj (hc.symm.trans hc₂)
    refine from_lastChange fun s' hs' => ?_
    obtain ⟨rows, hrows, rfl⟩ := map_eq_ok.mp hs'
    obtain ⟨a, a', ha, ha', rfl⟩ := modRow_eq_ok.mp hrows
    exact ⟨a, c', a', ha, .settled hk hq hc' ha', (keepsAccount_settleCash _ _ _ _ ha').2,
      Logged.refl _⟩
  | deliveryFailure =>
    refine from_slot (.turned hI.kept rfl) fun k hk => from_row fun c₁ hc₁ => ?_
    rw [hI.window] at hk
    obtain rfl := Option.some.inj (hc.symm.trans hc₁)
    refine Proc.From.guard (fun _ => .turned hI.kept rfl) fun hq => ?_
    refine from_modCustody fun c₂ c' hc₂ hc' => ?_
    obtain rfl := Option.some.inj (hc.symm.trans hc₂)
    refine from_modAccount fun a a' ha ha' => from_lastChange fun s' hs' => ?_
    obtain rfl := Except.ok.inj hs'
    exact ⟨a, c', a', ha, .deliveryFailure hk hq hc' ha', (keepsAccount_failCash _ _ _ _ ha').2,
      Logged.pushException _ _⟩
  -- a purchase to cover is not looked for in the window
  | boughtIn =>
    refine from_row fun c₁ hc₁ => ?_
    obtain rfl := Option.some.inj (hc.symm.trans hc₁)
    refine Proc.From.guard (fun _ => .turned hI.kept rfl) fun hq => ?_
    refine from_modCustody fun c₂ c' hc₂ hc' => ?_
    obtain rfl := Option.some.inj (hc.symm.trans hc₂)
    refine from_lastChange fun s' hs' => ?_
    obtain ⟨rows, hrows, rfl⟩ := map_eq_ok.mp hs'
    obtain ⟨a, a', ha, ha', rfl⟩ := modRow_eq_ok.mp hrows
    exact ⟨a, c', a', ha, .boughtIn hq hc' ha', (keepsAccount_buyInCash _ _ _ ha').2,
      Logged.refl _⟩

/-- Where it is accepted, a settlement has its effect. -/
theorem performs_applyTradeSettled (hs : e.s.Sound) {ev : EventView}
    (htmpl : Tmpl.ofId ev.tmpl.toNat = some .tradeSettled) :
    Performs e.s ev e (applyTradeSettled ev) := by
  refine from_decode (.turned (.refl _) rfl) fun hlen => ?_
  have hev := LogRecord.event_eq htmpl hlen
  refine from_account hs (.turned (.refl _) rfl) fun acct s₁ hI₁ hacct => ?_
  refine from_instrument hI₁.sound (.turned hI₁.kept rfl) fun inst s₂ hI₂ hinst => ?_
  have hI := hI₁.trans hI₂
  refine from_look fun found hfound => ?_
  obtain rfl := Except.ok.inj hfound
  refine Proc.From.orFail (fun _ => .turned hI.kept rfl) fun pos hpos => ?_
  have halt := lt_of_key hI₁.sound.accounts hacct
  have hilt := lt_of_key hI₂.sound.instruments hinst
  obtain ⟨c, hc, howner⟩ := hI.sound.owner (by omega) (by omega)
    ((hI.sound.positions.index.find _ pos).mp hpos)
  refine Proc.From.orFail (fun _ => .turned hI.kept rfl) fun outcome hout => ?_
  refine Proc.From.bind (from_settleBuckets hI hc outcome) ?_
  rintro _ eng ⟨a, c', a', ha, hrows, hfirst, hlog⟩
  refine from_advanceAccount fun a₁ n rows ha₁ hadv => ?_
  rw [hlog.accounts, List.getElem?_set_self (List.getElem?_eq_some_iff.mp ha).1] at ha₁
  obtain rfl := Option.some.inj ha₁
  rw [hlog.trades, hfirst, show _ = e.s.trades from hI.trades] at hadv
  refine performs_tail hev rfl ?_
  exact .tradeSettled hI ⟨hI₂.accountKey hacct, hinst, hc, howner, ha⟩ hout hrows hadv
    (hlog.withTrades rows)

/-! #### Corporate actions -/

/-- Using up a key of an idempotency set. -/
theorem insert_cases {n : ℕ} {t : TwoGenSet} (h : t.Sound n) (hi : UInt64) (lo : ℕ) :
    (t.insert hi lo = (.full, t)) ∨ (t.contains hi lo = true ∧ t.insert hi lo = (.present (), t)) ∨
      (t.contains hi lo = false ∧ (t.insert hi lo).1 = .added) := by
  rcases hc : t.contains hi lo with _ | _
  · obtain hfull | ⟨hadd, -⟩ := insert_of_not_contains h hc
    · refine .inl (Prod.ext hfull ?_)
      have hnone : OpenTable.find PairIndex.home (t.gen t.current) (hi, lo) = none := by
        simp only [TwoGenSet.contains, Bool.or_eq_false_iff, PairIndex.contains,
          Option.isSome_eq_false_iff, Option.isNone_iff_eq_none] at hc
        exact hc.1
      have hg := h.gen t.current
      have hlim := (slotCount_eq_some hg.slots).2.2
      simp only [TwoGenSet.insert, hc, Bool.false_eq_true, if_false, PairIndex.insert] at hfull ⊢
      rcases Nat.lt_or_ge (t.gen t.current).size (loadLimit (t.gen t.current).slots.length) with
        hlt | hge
      · obtain ⟨t', ht', -⟩ := OpenTable.insert_added hg.wf hlim hlt hnone ()
        rw [ht'] at hfull
        cases hfull
      · rw [OpenTable.insert_full hge hnone, setGen_gen]
    · exact .inr (.inr ⟨rfl, hadd⟩)
  · exact .inr (.inl ⟨rfl, by rw [TwoGenSet.insert, if_pos hc]⟩)

/-- An action changes one position and one account by its type. -/
theorem from_actOn {a : CorporateActionApplied} {acct pos : ℕ} {base : Raw} {c : CustodyRow}
    {r : AccountRow} (hc : e.s.custody[pos]? = some c) (hr : e.s.accounts[acct]? = some r)
    (type : ActionType) :
    Proc.From e (actOn a acct pos base type)
      (fun _ eng => ∃ c' r', ActsOn a base c type c' ∧ actCash a r type = .ok r' ∧
        eng.s = { e.s with
          custody := e.s.custody.set pos c'
          accounts := e.s.accounts.set acct r' })
      (fun st eng => st.code.plain = true ∧ st.isFatal = false ∧ eng = e) := by
  have hsame : e.s.accounts.set acct r = e.s.accounts := by
    obtain ⟨hlt, rfl⟩ := List.getElem?_eq_some_iff.mp hr
    exact List.set_getElem_self hlt
  have hclen := (List.getElem?_eq_some_iff.mp hc).1
  cases type with
  | split =>
    refine from_modCustody fun c₁ c' hc₁ hc' => from_row fun _ _ => ?_
    obtain rfl := Option.some.inj (hc.symm.trans hc₁)
    refine Proc.From.query fun _ _ => Proc.From.lift fun _ _ => ?_
    exact ⟨c', r, .split hc', rfl, by rw [hsame]⟩
  | reverseSplit =>
    refine from_modCustody fun c₁ c' hc₁ hc' => from_row fun _ _ => ?_
    obtain rfl := Option.some.inj (hc.symm.trans hc₁)
    refine Proc.From.query fun _ _ => Proc.From.lift fun _ _ => ?_
    exact ⟨c', r, .reverseSplit hc', rfl, by rw [hsame]⟩
  | bonus =>
    refine Proc.From.query fun ⟨total, rest⟩ hscale => ?_
    refine Proc.From.query fun whole hwhole => ?_
    refine Proc.From.guard (fun _ => ⟨rfl, rfl, rfl⟩) fun hpos => ?_
    refine Proc.From.query fun cost hcost => ?_
    refine from_modCustody fun c₁ c' hc₁ hc' => ?_
    obtain rfl := Option.some.inj (hc.symm.trans hc₁)
    refine Proc.From.lift fun _ _ => ⟨c', r, .bonus hscale hwhole hpos ?_, rfl, by rw [hsame]⟩
    simp only [bonusCustody, hcost, bind, Except.bind]
    exact hc'
  | subscription =>
    -- the rights are compared only where the event gives a ratio
    refine Proc.From.bind (R := fun _ eng => eng = e ∧ (a.factorNum ≠ 0 ∧ a.factorDen ≠ 0 →
      ∃ rights rest, scaleQtyTrunc base a.factorNum a.factorDen = .ok (rights, rest) ∧
        ¬ rights < a.qtyDelta)) ?_ ?_
    · split_ifs with hratio
      · refine Proc.From.query fun ⟨rights, rest⟩ hscale => ?_
        intro res e' h
        obtain ⟨rfl, ⟨hle, rfl⟩ | ⟨-, rfl⟩⟩ := Proc.guard_eq_ok.mp h
        · exact ⟨rfl, fun _ => ⟨rights, rest, hscale, hle⟩⟩
        · exact ⟨rfl, rfl, rfl⟩
      · exact Proc.From.pure ⟨rfl, fun h => absurd h hratio⟩
    rintro _ eng ⟨rfl, hright⟩
    refine from_modCustody fun c₁ c' hc₁ hc' => from_modAccount fun r₁ r' hr₁ hr' => ?_
    obtain rfl := Option.some.inj (hc.symm.trans hc₁)
    obtain rfl := Option.some.inj (hr.symm.trans hr₁)
    exact Proc.From.pure ⟨c', r', .subscription hright hc', hr', rfl⟩
  | leftoversAuction =>
    refine from_row fun c₀ hc₀ => Proc.From.query fun _ _ => ?_
    refine from_modCustody fun c₁ c' hc₁ hc' => from_modAccount fun r₁ r' hr₁ hr' => ?_
    obtain rfl := Option.some.inj (hc.symm.trans hc₁)
    obtain rfl := Option.some.inj (hr.symm.trans hr₁)
    -- an auction pays out and leaves the position
    obtain rfl := Except.ok.inj hc'
    exact Proc.From.pure ⟨_, r', .auction, hr', rfl⟩

/-- Where it is accepted, a corporate action has its effect. -/
theorem performs_applyCorporateAction (hs : e.s.Sound) {ev : EventView}
    (htmpl : Tmpl.ofId ev.tmpl.toNat = some .corporateActionApplied) :
    Performs e.s ev e (applyCorporateAction ev) := by
  refine from_decode (.turned (.refl _) rfl) fun hlen => ?_
  have hev := LogRecord.event_eq htmpl hlen
  refine from_account hs (.turned (.refl _) rfl) fun acct s₁ hI₁ hacct => ?_
  refine from_instrument hI₁.sound (.turned hI₁.kept rfl) fun inst s₂ hI₂ hinst => ?_
  have hI := hI₁.trans hI₂
  have halt := lt_of_key hI₁.sound.accounts hacct
  have hilt := lt_of_key hI₂.sound.instruments hinst
  refine from_position hI.sound (by omega) (by omega) (.turned hI.kept rfl)
    fun pos s₃ c hI₃ hc howner => ?_
  have hI := hI.trans hI₃
  have hacct := hI₃.accountKey (hI₂.accountKey hacct)
  have hinst := hI₃.instrumentKey hinst
  refine Proc.From.orFail (fun _ => .turned hI.kept rfl) fun type htype => ?_
  refine Proc.From.guard (fun _ => .turned hI.kept rfl) fun hvalid => ?_
  -- the key
  have hset : s₃.appliedActions.Sound s₃.cap.corporateActionsPerGen.toNat := hI.sound.actions
  refine Proc.From.bind (R := fun _ eng => eng.s = { s₃ with appliedActions :=
      (e.s.appliedActions.insert (CorporateActionApplied.ofBytes ev.payload).actionId acct).2 } ∧
    e.s.appliedActions.contains (CorporateActionApplied.ofBytes ev.payload).actionId acct = false ∧
    (e.s.appliedActions.insert (CorporateActionApplied.ofBytes ev.payload).actionId acct).1 =
      .added) ?_ ?_
  · refine from_ask rfl ?_
    obtain hins | ⟨hkey, hins⟩ | ⟨hkey, hins⟩ := insert_cases hset
      (CorporateActionApplied.ofBytes ev.payload).actionId acct
    · simp only [hins, refusedBy]
      exact Proc.From.fail (.turned hI.kept rfl)
    · simp only [hins, refusedBy]
      rw [hI.appliedActions] at hkey
      exact Proc.From.fail (.actionBefore hev hI hacct hkey)
    · simp only [hins, refusedBy]
      rw [hI.appliedActions] at hkey hins
      refine Proc.From.pure ⟨?_, hkey, hins⟩
      rw [hI.appliedActions]
  rintro _ eng ⟨heng, hkey, hins⟩
  have hc' : eng.s.custody[pos]? = some c := by rw [heng]; exact hc
  obtain ⟨a, ha⟩ : ∃ a, s₃.accounts[acct]? = some a := by
    rw [accountKeys, List.getElem?_map, Option.map_eq_some_iff] at hacct
    exact ⟨_, hacct.choose_spec.1⟩
  have ha' : eng.s.accounts[acct]? = some a := by rw [heng]; exact ha
  -- the change of the position
  refine from_row fun c₁ hc₁ => ?_
  obtain rfl := Option.some.inj (hc'.symm.trans hc₁)
  refine Proc.From.query fun base hbase => ?_
  refine Proc.From.seq (from_actOn hc' ha' type) ?_ ?_
  · rintro st _ ⟨hplain, hst, rfl⟩
    rw [heng]
    exact .refused hev hI hacct hins hplain hst
  rintro delta eng' ⟨c', a₁, hact, hcash, heng'⟩
  refine from_modAccount fun a₂ a' ha₂ htax => ?_
  obtain rfl : a₁ = a₂ := by
    rw [heng', List.getElem?_set_self (List.getElem?_eq_some_iff.mp ha').1] at ha₂
    exact Option.some.inj ha₂
  have heff : ∀ s', Logged { eng'.s with accounts := eng'.s.accounts.set acct a' } s' →
      Effect e.s (.corporateActionApplied (.ofBytes ev.payload)) s' := by
    intro s' hlog
    rw [heng', heng] at hlog
    simp only [List.set_set] at hlog
    exact .corporateActionApplied hI hacct hinst hc howner ha htype hvalid hkey hins hbase hact
      hcash htax hlog
  split_ifs
  · refine from_change fun s' hs' => ?_
    obtain rfl := Except.ok.inj hs'
    exact performs_tail hev rfl (heff _ (Logged.pushException _ _))
  · refine Proc.From.bind (R := fun _ eng => Effect e.s
      (.corporateActionApplied (.ofBytes ev.payload)) eng.s) ?_ fun _ _ h => performs_tail hev rfl h
    exact Proc.From.pure (heff _ (Logged.refl _))

/-! #### The other events -/

/-- Where it is accepted, an income has its effect. -/
theorem performs_applyDividendPaid (hs : e.s.Sound) {ev : EventView}
    (htmpl : Tmpl.ofId ev.tmpl.toNat = some .dividendPaid) :
    Performs e.s ev e (applyDividendPaid ev) := by
  refine from_decode (.turned (.refl _) rfl) fun hlen => ?_
  have hev := LogRecord.event_eq htmpl hlen
  refine from_account hs (.turned (.refl _) rfl) fun acct s₁ hI hacct => ?_
  refine Proc.From.query fun net hnet => ?_
  refine Proc.From.guard (fun _ => .turned hI.kept rfl) fun hsame => ?_
  subst hsame
  refine Proc.From.guard (fun _ => .turned hI.kept rfl) fun _ => ?_
  refine Proc.From.query fun expected _ => ?_
  -- where the tax differs the event is refused, and an exception is noted all the same
  refine Proc.From.bind (R := fun _ eng => eng = { e with s := s₁ }) ?_ ?_
  · split_ifs
    · refine from_change fun s₂ hs₂ => ?_
      obtain rfl := Except.ok.inj hs₂
      exact Proc.From.fail (.turned (hI.kept.pushException _) rfl)
    · exact Proc.From.pure rfl
  rintro _ eng rfl
  -- the key is the last check, so a refused income never puts it in
  have hset : s₁.appliedIncome.Sound s₁.cap.corporateActionsPerGen.toNat := hI.sound.income
  refine Proc.From.bind (R := fun _ eng => eng.s = { s₁ with appliedIncome :=
      (e.s.appliedIncome.insert (DividendPaid.ofBytes ev.payload).actionId acct).2 } ∧
    e.s.appliedIncome.contains (DividendPaid.ofBytes ev.payload).actionId acct = false ∧
    (e.s.appliedIncome.insert (DividendPaid.ofBytes ev.payload).actionId acct).1 = .added) ?_ ?_
  · refine from_ask rfl ?_
    obtain hins | ⟨hkey, hins⟩ | ⟨hkey, hins⟩ := insert_cases hset
      (DividendPaid.ofBytes ev.payload).actionId acct
    · simp only [hins, refusedBy]
      exact Proc.From.fail (.turned hI.kept rfl)
    · simp only [hins, refusedBy]
      rw [hI.appliedIncome] at hkey
      exact Proc.From.fail (.incomeBefore hev hI hacct hkey)
    · simp only [hins, refusedBy]
      rw [hI.appliedIncome] at hkey hins
      refine Proc.From.pure ⟨?_, hkey, hins⟩
      rw [hI.appliedIncome]
  rintro _ eng ⟨heng, hkey, hins⟩
  refine from_lastChange fun s' hs' => ?_
  obtain ⟨rows, hrows, rfl⟩ := map_eq_ok.mp hs'
  obtain ⟨a, a', ha, ha', rfl⟩ := modRow_eq_ok.mp hrows
  rw [heng] at ha ⊢
  have heff := Effect.dividendPaid hI hacct hnet hkey hins ha ha'
  exact ⟨_, hev, heff⟩

theorem performs_applyClosingPrice (hs : e.s.Sound) {ev : EventView}
    (htmpl : Tmpl.ofId ev.tmpl.toNat = some .closingPriceSet) :
    Performs e.s ev e (applyClosingPrice ev) := by
  refine from_decode (.turned (.refl _) rfl) fun hlen => ?_
  have hev := LogRecord.event_eq htmpl hlen
  refine Proc.From.guard (fun _ => .turned (.refl _) rfl) fun hfactor => ?_
  refine from_instrument hs (.turned (.refl _) rfl) fun inst s₁ hI hinst => ?_
  refine from_lastChange fun s' hs' => ?_
  obtain ⟨rows, hrows, rfl⟩ := map_eq_ok.mp hs'
  obtain ⟨i, i', hi, hi', rfl⟩ := modRow_eq_ok.mp hrows
  obtain rfl := Except.ok.inj hi'
  exact ⟨_, hev, .closingPriceSet hI hfactor hinst hi⟩

/-- Where it is accepted, a reconciliation has its effect. -/
theorem performs_applyCustodyReconciled {ev : EventView}
    (htmpl : Tmpl.ofId ev.tmpl.toNat = some .custodyReconciled) :
    Performs e.s ev e (applyCustodyReconciled ev) := by
  refine from_decode (.turned (.refl _) rfl) fun hlen => ?_
  have hev := LogRecord.event_eq htmpl hlen
  rcases hds : viewGroup (ev.payload.drop Tmpl.custodyReconciled.blockLength) with st | ds
  · refine Proc.From.bind (R := fun _ _ => False) ?_ (by simp)
    exact Proc.From.fail (.turned (.refl _) (plain_viewGroup hds))
  · simp only [Event.ofPayload, hds] at hev
    refine Proc.From.bind (R := fun a eng => a = ds ∧ eng = e) (Proc.From.pure ⟨rfl, rfl⟩) ?_
    rintro _ _ ⟨rfl, rfl⟩
    refine from_lastChange fun s' hs' => ?_
    obtain rfl := Except.ok.inj hs'
    exact ⟨_, hev, .custodyReconciled⟩

/-- Where it is accepted, the mark of the end of a day has its effect. -/
theorem performs_applyEodMarked {ev : EventView}
    (htmpl : Tmpl.ofId ev.tmpl.toNat = some .eodMarked) :
    Performs e.s ev e (applyEodMarked ev) := by
  refine from_decode (.turned (.refl _) rfl) fun hlen => ?_
  have hev := LogRecord.event_eq htmpl hlen
  refine from_look fun _ _ => from_look fun _ _ => ?_
  refine Proc.From.guard (fun _ => .diverged hev) fun _ => ?_
  refine from_lastChange fun s' hs' => ?_
  obtain rfl := Except.ok.inj hs'
  exact ⟨_, hev, .eodMarked⟩

/-- Every handler has the effect of its event. -/
theorem performs_handler (hs : e.s.Sound) {ev : EventView} {t : Tmpl}
    (ht : Tmpl.ofId ev.tmpl.toNat = some t) : Performs e.s ev e (handler ev t) := by
  cases t with
  | dayOpened => exact performs_applyDayOpened ht
  | tradeExecuted => exact performs_applyTradeExecuted hs ht
  | tradeAllocated => exact performs_applyTradeAllocated hs ht
  | batchNetted => exact performs_applyBatchNetted hs ht
  | tradeSettled => exact performs_applyTradeSettled hs ht
  | corporateActionApplied => exact performs_applyCorporateAction hs ht
  | dividendPaid => exact performs_applyDividendPaid hs ht
  | closingPriceSet => exact performs_applyClosingPrice hs ht
  | custodyReconciled => exact performs_applyCustodyReconciled ht
  | eodMarked => exact performs_applyEodMarked ht

end Apply

/-- **What an event does.** From a sound state, an accepted event has its effect, and any other
way to return is one of `Ended`; the LSN is set in every case. -/
theorem apply_cases {s : PartitionState} (hs : s.Sound) {o : Option Outbox} {ev : EventView}
    {st : Status} {e' : Engine} (h : apply ⟨s, o⟩ ev = .ok (st, e')) :
    ∃ s', e'.s = { s' with appliedLsn := UInt64.ofNat ev.lsn } ∧
      ((st = .kOk ∧ ∃ x, LogRecord.event ev = some x ∧ Effect s x s') ∨ Ended s ev st s') := by
  simp only [apply, bind, except_bind_eq_ok] at h
  obtain ⟨⟨r, e₁⟩, hd, h⟩ := h
  obtain ⟨rfl, rfl⟩ := Prod.mk.inj (Except.ok.inj h)
  refine ⟨e₁.s, rfl, ?_⟩
  unfold Apply.dispatch at hd
  rcases ht : Tmpl.ofId ev.tmpl.toNat with _ | t <;> rw [ht] at hd
  · obtain ⟨rfl, rfl⟩ := Proc.fail_eq_ok.mp hd
    exact .inr (.turned (.refl s) rfl)
  · have hper := Apply.performs_handler (e := ⟨s, o⟩) hs ht
    cases r with
    | error st => exact .inr (hper.error hd)
    | ok u => exact .inl ⟨rfl, hper.ok hd⟩

/-- An event that is not accepted, and not fatal either, keeps every row; a corporate action may
have used up its key. -/
theorem Ended.kept {s s' : PartitionState} {ev : EventView} {st : Status} (h : Ended s ev st s')
    (hst : st.isFatal = false) : ∃ t, Kept { s with appliedActions := t } s' := by
  cases h with
  | turned hkept => exact ⟨_, hkept⟩
  | executedBefore => exact ⟨_, .refl s⟩
  | actionBefore _ hI => exact ⟨_, hI.kept⟩
  | incomeBefore _ hI => exact ⟨_, hI.kept⟩
  | @refused e s₁ st acct _ hI =>
    exact ⟨(s.appliedActions.insert e.actionId acct).2, { hI.kept with appliedActions := rfl }⟩
  | diverged => cases hst
  | unpublished => cases hst
  | corrupt => cases hst
  | corruptMove => cases hst

/-- Such an event does not answer `Ok`. -/
theorem Ended.isOk_eq_false {s s' : PartitionState} {ev : EventView} {st : Status}
    (h : Ended s ev st s') : st.isOk = false := by
  have hplain : ∀ {st : Status}, st.code.plain = true → st.isOk = false := by
    rintro ⟨c, d⟩ hc
    cases c <;> first | rfl | cases hc
  cases h with
  | turned _ h => exact hplain h
  | refused _ _ _ _ h => exact hplain h
  | _ => rfl

end MotorRv
