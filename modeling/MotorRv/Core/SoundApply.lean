import MotorRv.Core.Sound

/-!
# Handlers keep the state sound

The invariant is carried through a handler together with a condition `J` on the trade table, for
the stretch between the check that a trade id is new and the insertion of the trade: what touches
no trade keeps every `J`.

`Keeps J φ` is the postcondition of a part: the state is still sound, `J` still holds of the trades,
and the value returned satisfies `φ`. There is one lemma for each part, in the order in which the
handlers are composed of them, and `Safe` is the same without the memory of `J`, for the last part
of a handler. The postcondition holds for failures too: a handler that returns early leaves a sound
state.

The one argument that needs the condition on the trades is the insertion of an executed trade, whose
id was looked up some checks before (`Fresh`). In the end `sound_apply` covers every event and every
status.
-/

namespace MotorRv

open Lib PartitionState

namespace Apply

variable {α β : Type} {J : List TradeRow → StateCapacity → Prop}

/-- A condition on the trade table that says nothing. -/
def anyTrades : List TradeRow → StateCapacity → Prop := fun _ _ => True

/-- A sound state stays sound, `J` is kept on return, and the value returned satisfies `φ`. -/
def Keeps (J : List TradeRow → StateCapacity → Prop) (φ : α → Prop) (m : Apply α) : Prop :=
  Proc.Ensures (fun e : Engine => e.s.Sound ∧ J e.s.trades e.s.cap) m
    (fun a e => φ a ∧ e.s.Sound ∧ J e.s.trades e.s.cap) (fun _ e => e.s.Sound)

/-- The second part may use what is known of the value that the first returned. -/
theorem Keeps.bind {φ : α → Prop} {ψ : β → Prop} {m : Apply α} {f : α → Apply β}
    (hm : Keeps J φ m) (hf : ∀ a, φ a → Keeps J ψ (f a)) : Keeps J ψ (m >>= f) := by
  refine Proc.Ensures.bind hm fun a => ?_
  rintro e r e' ⟨ha, he⟩ h
  exact hf a ha e r e' he h

theorem Keeps.pure {φ : α → Prop} {a : α} (h : φ a) : Keeps J φ (pure a) :=
  Proc.Ensures.pure fun _ he => ⟨h, he⟩

theorem Keeps.fail {φ : α → Prop} (st : Status) : Keeps J φ (Proc.fail st : Apply α) :=
  Proc.Ensures.fail fun _ he => he.1

/-- After a guard its condition is known. -/
theorem Keeps.guard (c : Prop) [Decidable c] (st : Status) :
    Keeps J (fun _ => c) (Proc.guard c st : Apply PUnit) :=
  Proc.Ensures.guard (fun _ he hc => ⟨hc, he⟩) fun _ he _ => he.1

/-- After an `orFail` the value is known to be the one looked for. -/
theorem Keeps.orFail (o : Option α) (st : Status) :
    Keeps J (fun a => o = some a) (Proc.orFail o st : Apply α) :=
  Proc.Ensures.orFail (fun _ _ he ho => ⟨ho, he⟩) fun _ he _ => he.1

theorem Keeps.ofExcept (x : Except Status α) :
    Keeps J (fun _ => True) (Proc.ofExcept x : Apply α) :=
  Proc.Ensures.ofExcept (fun _ _ he _ => ⟨trivial, he⟩) fun _ _ he _ => he.1

theorem Keeps.lift (x : Exec α) : Keeps J (fun _ => True) (Proc.lift x : Apply α) :=
  Proc.Ensures.query fun _ _ he _ => ⟨trivial, he⟩

/-- What is read from a sound state is known of the value. -/
theorem Keeps.look {φ : α → Prop} {f : PartitionState → Exec α}
    (h : ∀ s a, s.Sound → f s = .ok a → φ a) : Keeps J φ (look f) :=
  Proc.Ensures.query fun e a he ha => ⟨h e.s a he.1 ha, he⟩

/-- Looking at the state moves nothing. -/
theorem Keeps.look_true {f : PartitionState → Exec α} : Keeps J (fun _ => True) (Apply.look f) :=
  .look fun _ _ _ _ => trivial

/-- Interning keeps the state sound where it adds rows to the tables but no trade. -/
theorem Keeps.ask {φ : α → Prop} {f : PartitionState → α × PartitionState}
    (h : ∀ s, s.Sound → φ (f s).1 ∧ (f s).2.Sound ∧ (f s).2.trades = s.trades ∧
      (f s).2.cap = s.cap) : Keeps J φ (ask f) :=
  Proc.Ensures.act fun e he => by
    obtain ⟨hφ, hs, ht, hc⟩ := h e.s he.1
    exact ⟨hφ, hs, by simpa only [ht, hc] using he.2⟩

/-- A change of the state has to keep it sound, and the trade table as `J` wants it. -/
theorem Keeps.change {f : PartitionState → Exec PartitionState}
    (h : ∀ s s', s.Sound → J s.trades s.cap → f s = .ok s' → s'.Sound ∧ J s'.trades s'.cap) :
    Keeps J (fun _ => True) (change f) :=
  Proc.Ensures.update fun e e' he hf => by
    obtain ⟨s', hs', rfl⟩ := map_eq_ok.mp hf
    exact ⟨trivial, h e.s s' he.1 he.2 hs'⟩

theorem Keeps.mono {φ ψ : α → Prop} {m : Apply α} (h : Keeps J φ m) (hψ : ∀ a, φ a → ψ a) :
    Keeps J ψ m :=
  Proc.Ensures.mono h (fun _ he => he) (fun a _ he => ⟨hψ a he.1, he.2⟩) fun _ _ he => he

theorem Keeps.ite {φ : α → Prop} {c : Prop} [Decidable c] {m n : Apply α} (hm : c → Keeps J φ m)
    (hn : ¬ c → Keeps J φ n) : Keeps J φ (if c then m else n) :=
  Proc.Ensures.ite hm hn

/-! ### Parts of handlers -/

/-- Interning an account keeps soundness, and the row has a number of 32 bits. -/
theorem keeps_internAccount (doc : UInt64) :
    Keeps J (fun r => ∀ i, r = some i → i < 2 ^ 32) (ask fun s => s.internAccount doc) := by
  refine .ask fun s hs => ?_
  obtain ⟨h1, h2⟩ := hs.internAccount doc
  refine ⟨h2, h1, ?_⟩
  obtain heq | ⟨i, -, heq⟩ | ⟨-, -, t, heq, -⟩ := internAccount_cases hs doc <;> rw [heq] <;>
    exact ⟨rfl, rfl⟩

/-- The row of an account has a number of 32 bits. -/
theorem keeps_account (doc : UInt64) : Keeps J (fun i => i < 2 ^ 32) (account doc) :=
  .bind (keeps_internAccount doc) fun r hr => (Keeps.orFail r _).mono hr

/-- The row of an instrument has a number of 32 bits. -/
theorem keeps_instrument (externalId : UInt32) :
    Keeps J (fun i => i < 2 ^ 32) (instrument externalId) := by
  refine .bind (φ := fun r => ∀ i, r = some i → i < 2 ^ 32) (.ask fun s hs => ?_) fun r hr => ?_
  · obtain ⟨h1, h2⟩ := hs.internInstrument externalId
    refine ⟨h2, h1, ?_⟩
    obtain heq | ⟨i, -, heq⟩ | ⟨-, -, t, heq, -⟩ := internInstrument_cases hs externalId <;>
      rw [heq] <;> exact ⟨rfl, rfl⟩
  · exact (Keeps.orFail r _).mono hr

/-- A position may be interned of any two rows, since its key is made of 32-bit halves. -/
theorem keeps_internPosition {a i : ℕ} (ha : a < 2 ^ 32) (hi : i < 2 ^ 32) :
    Keeps J (fun _ => True) (ask fun s => s.internPosition a i) := by
  refine .ask fun s hs => ⟨trivial, hs.internPosition ha hi, ?_⟩
  obtain heq | ⟨j, -, heq⟩ | ⟨-, -, t, heq, -⟩ := internPosition_cases hs a i <;> rw [heq] <;>
    exact ⟨rfl, rfl⟩

/-- A position is found or made of two rows whose numbers fit its key. -/
theorem keeps_position {a i : ℕ} (ha : a < 2 ^ 32) (hi : i < 2 ^ 32) :
    Keeps J (fun _ => True) (position a i) :=
  .bind (keeps_internPosition ha hi) fun r _ => (Keeps.orFail r _).mono fun _ _ => trivial

theorem keeps_slot (date : DateYmd) : Keeps J (fun _ => True) (slot date) :=
  .bind .look_true fun k _ => (Keeps.orFail k _).mono fun _ _ => trivial

theorem keeps_checkBuckets (pos : ℕ) : Keeps J (fun _ => True) (checkBuckets pos) :=
  .bind .look_true fun _ _ => (Keeps.guard _ _).mono fun _ _ => trivial

theorem keeps_decode (t : Tmpl) (ofBytes : Bytes → α) (ev : EventView) :
    Keeps J (fun _ => True) (decode t ofBytes ev) :=
  .bind (Keeps.guard _ _) fun _ _ => .pure trivial

/-- A change of a custody row leaves its owner alone. -/
def KeepsOwner (f : CustodyRow → Exec CustodyRow) : Prop :=
  ∀ c, Returns (f c) fun c' => c'.account = c.account ∧ c'.instrument = c.instrument

/-- A change of an account row leaves document and list alone. -/
def KeepsAccount (f : AccountRow → Exec AccountRow) : Prop :=
  ∀ a, Returns (f a) fun a' => a'.document = a.document ∧ a'.firstTrade = a.firstTrade

/-- A change of a custody row that keeps its owner. -/
theorem keeps_modCustody (pos : ℕ) {f : CustodyRow → Exec CustodyRow}
    (hf : KeepsOwner f) : Keeps J (fun _ => True) (modCustody pos f) := by
  refine .change fun s s' hs hJ h => ?_
  obtain ⟨rows, hrows, rfl⟩ := map_eq_ok.mp h
  obtain ⟨c, c', hc, hfc, rfl⟩ := modRow_eq_ok.mp hrows
  obtain ⟨h1, h2⟩ := hf c c' hfc
  have hkeys : (s.custody.set pos c').map (fun c => positionKey c.account c.instrument) =
      s.custody.map fun c => positionKey c.account c.instrument :=
    map_set_of_eq hc (by rw [h1, h2])
  refine ⟨{ hs with positions := ?_, custodyRows := ?_ }, hJ⟩
  · simpa only [positionKeys, hkeys] using hs.positions
  · refine forall_mem_set hs.custodyRows ?_
    rw [h1, h2]
    exact hs.custodyRows c (List.mem_of_getElem? hc)

/-- A change of an account row that keeps its document and its list. -/
theorem keeps_modAccount (acct : ℕ) {f : AccountRow → Exec AccountRow}
    (hf : KeepsAccount f) : Keeps J (fun _ => True) (modAccount acct f) := by
  refine .change fun s s' hs hJ h => ?_
  obtain ⟨rows, hrows, rfl⟩ := map_eq_ok.mp h
  obtain ⟨a, a', ha, hfa, rfl⟩ := modRow_eq_ok.mp hrows
  obtain ⟨h1, h2⟩ := hf a a' hfa
  have hkeys : (s.accounts.set acct a').map (·.document) = s.accounts.map (·.document) :=
    map_set_of_eq ha h1
  refine ⟨{ hs with accounts := ?_, accountRows := ?_ }, hJ⟩
  · simpa only [accountKeys, hkeys] using hs.accounts
  · refine forall_mem_set hs.accountRows ?_
    rw [h2]
    exact hs.accountRows a (List.mem_of_getElem? ha)

/-- An instrument row may change in everything but its external id, which the index holds. -/
theorem keeps_modInstrument (inst : ℕ) {f : InstrumentRow → Exec InstrumentRow}
    (hf : ∀ i i', f i = .ok i' → i'.externalId = i.externalId) :
    Keeps J (fun _ => True) (modInstrument inst f) := by
  refine .change fun s s' hs hJ h => ?_
  obtain ⟨rows, hrows, rfl⟩ := map_eq_ok.mp h
  obtain ⟨i, i', hi, hfi, rfl⟩ := modRow_eq_ok.mp hrows
  have hkeys : (s.instruments.set inst i').map (fun i => instrumentKey i.externalId) =
      s.instruments.map fun i => instrumentKey i.externalId :=
    map_set_of_eq hi (by rw [hf i i' hfi])
  refine ⟨{ hs with instruments := ?_ }, hJ⟩
  simpa only [instrumentKeys, hkeys] using hs.instruments

/-- Other rows in the trade table with the same ids, each with numbers that fit. -/
theorem sound_trades {s : PartitionState} (hs : s.Sound) {rows : List TradeRow}
    (hkeys : rows.map (·.tradeId) = s.trades.map (·.tradeId))
    (hrows : ∀ t ∈ rows, t.account < 2 ^ 32 ∧ t.instrument < 2 ^ 32 ∧ LinkOk t.next) :
    ({ s with trades := rows } : PartitionState).Sound :=
  { hs with
    trades := by simpa only [tradeKeys, hkeys] using hs.trades
    tradeRows := hrows }

/-- A trade row may be replaced by one with the same id whose numbers and link fit. -/
theorem sound_setTrade {s : PartitionState} (hs : s.Sound) {t : ℕ} {r r' : TradeRow}
    (hr : s.trades[t]? = some r) (hid : r'.tradeId = r.tradeId)
    (hrow : r'.account < 2 ^ 32 ∧ r'.instrument < 2 ^ 32 ∧ LinkOk r'.next) :
    ({ s with trades := s.trades.set t r' } : PartitionState).Sound :=
  sound_trades hs (map_set_of_eq hr hid) (forall_mem_set hs.tradeRows hrow)

/-- The head of the list of an account may be any link that fits. -/
theorem sound_setFirst {s : PartitionState} (hs : s.Sound) {i : ℕ} {a : AccountRow}
    (ha : s.accounts[i]? = some a) {l : Option ℕ} (hl : LinkOk l) :
    ({ s with accounts :=
      s.accounts.set i { a with firstTrade := l } } : PartitionState).Sound := by
  have hkeys : (s.accounts.set i { a with firstTrade := l }).map (·.document) =
      s.accounts.map (·.document) := map_set_of_eq ha rfl
  refine { hs with accounts := ?_, accountRows := forall_mem_set hs.accountRows hl }
  simpa only [accountKeys, hkeys] using hs.accounts

/-- The ring of exceptions only holds records. -/
theorem sound_pushException {s : PartitionState} (hs : s.Sound) (r : ExceptionRecord) (m : Bool) :
    (s.pushException r m).Sound ∧ (s.pushException r m).trades = s.trades ∧
      (s.pushException r m).cap = s.cap := by
  unfold PartitionState.pushException
  split_ifs
  · exact ⟨hs, rfl, rfl⟩
  all_goals exact ⟨{ hs with exceptions := by simpa using hs.exceptions }, rfl, rfl⟩

theorem keeps_pushException (r : ExceptionRecord) (m : Bool) :
    Keeps J (fun _ => True) (pushException r m) := by
  refine .change fun s s' hs hJ h => ?_
  obtain rfl := Except.ok.inj h
  obtain ⟨h1, h2, h3⟩ := sound_pushException hs r m
  exact ⟨h1, by rw [h2, h3]; exact hJ⟩

/-- Publishing a position touches the outbox, not the state. -/
theorem keeps_publicaPosicao (ev : EventView) (pos : ℕ) :
    Keeps J (fun _ => True) (publicaPosicao ev pos) := by
  intro e r e' he h
  have hs : e'.s = e.s := by
    unfold publicaPosicao at h
    split at h
    · simp only [Except.ok.injEq, Prod.mk.injEq] at h
      rw [← h.2]
    · simp only [bind, except_bind_eq_ok] at h
      obtain ⟨c, -, a, -, i, -, ⟨st, o'⟩, -, h⟩ := h
      dsimp only at h
      split_ifs at h <;> (simp only [Except.ok.injEq, Prod.mk.injEq] at h; rw [← h.2])
  rcases r with st | u
  · change e'.s.Sound
    rw [hs]
    exact he.1
  · exact ⟨trivial, by rw [hs]; exact he.1, by rw [hs]; exact he.2⟩

/-! ### Lists of trades -/

/-- Unlinking writes links that were in the table before. -/
theorem sound_unlinkTrade {s s' : PartitionState} (hs : s.Sound) {acct t : ℕ} {b : Bool}
    (h : unlinkTrade s acct t = .ok (b, s')) : s'.Sound := by
  unfold unlinkTrade at h
  simp only [bind, except_bind_eq_ok] at h
  obtain ⟨a, ha, h⟩ := h
  rw [rowAt_eq_ok] at ha
  split at h
  · simp only [Except.ok.injEq, Prod.mk.injEq] at h
    exact h.2 ▸ hs
  · split_ifs at h
    · simp only [except_bind_eq_ok] at h
      obtain ⟨r, hr, h⟩ := h
      simp only [Except.ok.injEq, Prod.mk.injEq] at h
      rw [← h.2]
      exact sound_setFirst hs ha (hs.tradeRows r (List.mem_of_getElem? (rowAt_eq_ok.mp hr))).2.2
    · simp only [except_bind_eq_ok] at h
      obtain ⟨p, -, h⟩ := h
      split at h
      · simp only [Except.ok.injEq, Prod.mk.injEq] at h
        exact h.2 ▸ hs
      · simp only [except_bind_eq_ok] at h
        obtain ⟨r, hr, rows, hrows, h⟩ := h
        obtain ⟨q, q', hq, hq', rfl⟩ := modRow_eq_ok.mp hrows
        simp only [Except.ok.injEq, Prod.mk.injEq] at h hq'
        rw [← h.2]
        refine sound_setTrade hs hq (hq' ▸ rfl) ?_
        have hrow := hs.tradeRows q (List.mem_of_getElem? hq)
        rw [← hq']
        exact ⟨hrow.1, hrow.2.1,
          (hs.tradeRows r (List.mem_of_getElem? (rowAt_eq_ok.mp hr))).2.2⟩

/-- The walk over a list changes nothing but states. -/
theorem advance_rows {covered : TradeRow → Bool} {g : TradeTrigger} :
    ∀ {fuel : ℕ} {l : Option ℕ} {trades rows : List TradeRow} {n : ℕ},
      advance covered g fuel l trades = .ok (n, rows) →
        rows.map (fun r => { r with state := 0 }) = trades.map fun r => { r with state := 0 } := by
  intro fuel
  induction fuel with
  | zero =>
    intro l trades rows n h
    cases l with
    | none => simp [advance] at h; rw [h.2]
    | some t => simp [advance] at h
  | succ fuel ih =>
    intro l trades rows n h
    cases l with
    | none => simp [advance] at h; rw [h.2]
    | some t =>
      simp only [advance, bind, except_bind_eq_ok] at h
      obtain ⟨r, hr, h⟩ := h
      split_ifs at h
      · simp only [except_bind_eq_ok] at h
        obtain ⟨st, -, h⟩ := h
        split_ifs at h
        · exact ih h
        · simp only [except_bind_eq_ok] at h
          obtain ⟨⟨m, rows'⟩, hrec, h⟩ := h
          simp only [Except.ok.injEq, Prod.mk.injEq] at h
          rw [← h.2, ih hrec]
          exact map_set_of_eq (rowAt_eq_ok.mp hr) rfl
      · exact ih h

/-- A property of rows that does not look at the state passes along the walk. -/
theorem forall_of_map_state {P : TradeRow → Prop} (hP : ∀ r, P { r with state := 0 } ↔ P r)
    {rows trades : List TradeRow}
    (h : rows.map (fun r => { r with state := 0 }) = trades.map fun r => { r with state := 0 })
    (ht : ∀ r ∈ trades, P r) : ∀ r ∈ rows, P r := by
  intro r hr
  have hmem : ({ r with state := 0 } : TradeRow) ∈ trades.map fun r => { r with state := 0 } :=
    h ▸ List.mem_map_of_mem hr
  obtain ⟨r', hr', heq⟩ := List.mem_map.mp hmem
  rw [← hP r, ← heq, hP r']
  exact ht r' hr'

/-- Advancing the trades of an account changes their states, not their keys. -/
theorem keeps_advanceAccount (acct : ℕ) (covered : TradeRow → Bool) (g : TradeTrigger) :
    Keeps anyTrades (fun _ => True) (advanceAccount acct covered g) := by
  intro e r e' he h
  simp only [advanceAccount, bind, except_bind_eq_ok] at h
  obtain ⟨a, -, ⟨n, rows⟩, hadv, h⟩ := h
  simp only [Except.ok.injEq, Prod.mk.injEq] at h
  obtain ⟨rfl, rfl⟩ := h
  have hrows := advance_rows hadv
  refine ⟨trivial, sound_trades he.1 ?_ ?_, trivial⟩
  · have := congrArg (List.map (·.tradeId)) hrows
    simpa only [List.map_map, Function.comp_def] using this
  · exact forall_of_map_state (fun _ => Iff.rfl) hrows he.1.tradeRows

/-! ### Rows -/

/-- An execution moves quantities of a position, whose owner stays; so do the other changes of
custody rows below. -/
theorem keepsOwner_executeCustody (e : TradeExecuted) (k : Fin 3) :
    KeepsOwner (executeCustody e k) := fun _ =>
  .ite (fun _ => .bind fun _ _ => .ok ⟨rfl, rfl⟩)
    fun _ => .bind fun _ _ => .bind fun _ _ => .ok ⟨rfl, rfl⟩

theorem keepsOwner_allocateFrom (e : TradeAllocated) (k : Fin 3) :
    KeepsOwner (allocateFrom e k) := fun _ =>
  .ite (fun _ => .bind fun _ _ => .ok ⟨rfl, rfl⟩)
    fun _ => .bind fun _ _ => .bind fun _ _ => .ok ⟨rfl, rfl⟩

theorem keepsOwner_allocateTo (e : TradeAllocated) (k : Fin 3) :
    KeepsOwner (allocateTo e k) := fun _ =>
  .ite (fun _ => .bind fun _ _ => .ok ⟨rfl, rfl⟩)
    fun _ => .bind fun _ _ => .bind fun _ _ => .ok ⟨rfl, rfl⟩

theorem keepsOwner_settleCustody (e : TradeSettled) (k : Fin 3) :
    KeepsOwner (settleCustody e k) := fun _ =>
  .ite (fun _ => .bind fun _ _ => .bind fun _ _ => .bind fun _ _ => .bind fun _ _ => .ok ⟨rfl, rfl⟩)
    fun _ => .bind fun _ _ => .ok ⟨rfl, rfl⟩

theorem keepsOwner_failCustody (e : TradeSettled) (k : Fin 3) :
    KeepsOwner (failCustody e k) := fun _ =>
  .ite (fun _ => .bind fun _ _ => .bind fun _ _ => .ok ⟨rfl, rfl⟩)
    fun _ => .bind fun _ _ => .bind fun _ _ => .ok ⟨rfl, rfl⟩

theorem keepsOwner_buyInCustody (e : TradeSettled) : KeepsOwner (buyInCustody e) := fun _ =>
  .ite (fun _ => .bind fun _ _ => .bind fun _ _ => .ok ⟨rfl, rfl⟩)
    fun _ => .bind fun _ _ => .ok ⟨rfl, rfl⟩

theorem keepsOwner_splitCustody (num den : UInt32) : KeepsOwner (splitCustody num den) := fun _ =>
  .bind fun _ _ => .bind fun _ _ => .bind fun _ _ => .bind fun _ _ => .bind fun _ _ =>
    .bind fun _ _ => .bind fun _ _ => .bind fun _ _ => .bind fun _ _ => .bind fun _ _ =>
    .bind fun _ _ => .bind fun _ _ => .bind fun _ _ => .bind fun _ _ => .bind fun _ _ =>
    .ok ⟨rfl, rfl⟩

/-- Money is moved without touching document and list; so do the other changes of account rows
below. -/
theorem keepsAccount_addPending (k : Fin 3) (m : Raw) : KeepsAccount (addPending k m) :=
  fun _ => .bind fun _ _ => .ok ⟨rfl, rfl⟩

theorem keepsAccount_subPending (k : Fin 3) (m : Raw) : KeepsAccount (subPending k m) :=
  fun _ => .bind fun _ _ => .ok ⟨rfl, rfl⟩

theorem keepsAccount_settleCash (k : Fin 3) (m : Raw) : KeepsAccount (settleCash k m) :=
  fun _ => .bind fun _ _ => .bind fun _ _ => .ok ⟨rfl, rfl⟩

theorem keepsAccount_failCash (k : Fin 3) (m : Raw) : KeepsAccount (failCash k m) :=
  fun _ => .bind fun _ _ => .bind fun _ _ => .ok ⟨rfl, rfl⟩

theorem keepsAccount_buyInCash (m : Raw) : KeepsAccount (buyInCash m) :=
  fun _ => .bind fun _ _ => .bind fun _ _ => .ok ⟨rfl, rfl⟩

theorem keepsAccount_creditIncome (e : DividendPaid) : KeepsAccount (creditIncome e) := fun _ =>
  .ite (fun _ => .bind fun _ _ => .ok ⟨rfl, rfl⟩)
    fun _ => .bind fun _ _ => .bind fun _ _ => .ok ⟨rfl, rfl⟩

/-- A rotation renames slots and leaves the owner of the position. -/
theorem keepsOwner_rotateCustody (old new : SettlementWindow) :
    KeepsOwner (rotateCustody old new) := by
  have hslot : ∀ c acc k, Returns (rotateCustodySlot old new c acc k) fun c' =>
      c'.account = acc.account ∧ c'.instrument = acc.instrument := by
    intro c acc k
    refine .ite (fun _ => .ok ⟨rfl, rfl⟩) fun _ => ?_
    split
    · exact .bind fun _ _ => .bind fun _ _ => .ok ⟨rfl, rfl⟩
    · exact .bind fun _ _ => .bind fun _ _ => .ok ⟨rfl, rfl⟩
  intro c
  refine .ite (fun _ => .ok ⟨rfl, rfl⟩) fun _ => ?_
  refine .bind fun c₀ h₀ => .bind fun c₁ h₁ => fun c₂ h₂ => ?_
  obtain ⟨a₀, i₀⟩ := hslot _ _ _ _ h₀
  obtain ⟨a₁, i₁⟩ := hslot _ _ _ _ h₁
  obtain ⟨a₂, i₂⟩ := hslot _ _ _ _ h₂
  exact ⟨a₂.trans (a₁.trans a₀), i₂.trans (i₁.trans i₀)⟩

/-- A rotation renames slots and leaves the document and list of the account. -/
theorem keepsAccount_rotateCash (old new : SettlementWindow) :
    KeepsAccount (rotateCash old new) := by
  have hslot : ∀ a acc k, Returns (rotateCashSlot old new a acc k) fun a' =>
      a'.document = acc.document ∧ a'.firstTrade = acc.firstTrade := by
    intro a acc k
    refine .ite (fun _ => .ok ⟨rfl, rfl⟩) fun _ => ?_
    split
    · exact .bind fun _ _ => .ok ⟨rfl, rfl⟩
    · exact .bind fun _ _ => .ok ⟨rfl, rfl⟩
  intro a
  refine .ite (fun _ => .ok ⟨rfl, rfl⟩) fun _ => ?_
  refine .bind fun a₀ h₀ => .bind fun a₁ h₁ => fun a₂ h₂ => ?_
  obtain ⟨d₀, t₀⟩ := hslot _ _ _ _ h₀
  obtain ⟨d₁, t₁⟩ := hslot _ _ _ _ h₁
  obtain ⟨d₂, t₂⟩ := hslot _ _ _ _ h₂
  exact ⟨d₂.trans (d₁.trans d₀), t₂.trans (t₁.trans t₀)⟩

/-! ### Compaction -/

/-- Linking again changes links only, and every link is to one of the rows. -/
theorem relink_rows {P : Option ℕ → Prop} : ∀ {ts ts' : List TradeRow} {i : ℕ}
    {accounts accounts' : List AccountRow}, relink i ts accounts = .ok (ts', accounts') →
      (∀ a ∈ accounts, P a.firstTrade) → (∀ j, i ≤ j → j < i + ts.length → P (some j)) →
      ts'.map (fun t => { t with next := none }) = ts.map (fun t => { t with next := none }) ∧
      accounts'.map (fun a => { a with firstTrade := none }) =
        accounts.map (fun a => { a with firstTrade := none }) ∧
      (∀ t ∈ ts', P t.next) ∧ ∀ a ∈ accounts', P a.firstTrade := by
  intro ts
  induction ts with
  | nil =>
    intro ts' i accounts accounts' h hacc _
    simp only [relink, Except.ok.injEq, Prod.mk.injEq] at h
    obtain ⟨rfl, rfl⟩ := h
    exact ⟨rfl, rfl, by simp, hacc⟩
  | cons t ts ih =>
    intro ts' i accounts accounts' h hacc hP
    simp only [relink, bind, except_bind_eq_ok] at h
    obtain ⟨⟨ts₁, acc₁⟩, hrec, h⟩ := h
    obtain ⟨h1, h2, h3, h4⟩ := ih hrec hacc fun j hj hlt =>
      hP j (by omega) (by rw [List.length_cons]; omega)
    dsimp only at h
    split at h
    · cases h
    · rename_i a ha
      simp only [Except.ok.injEq, Prod.mk.injEq] at h
      obtain ⟨rfl, rfl⟩ := h
      refine ⟨by simp [h1], ?_, ?_, ?_⟩
      -- of the accounts only the link of the owner changes
      · rw [← h2]
        exact map_set_of_eq ha rfl
      · intro r hr
        rcases List.mem_cons.mp hr with rfl | hr
        · exact h4 a (List.mem_of_getElem? ha)
        · exact h3 r hr
      · exact forall_mem_set h4 (hP i le_rfl (by simp))

/-- A key of rows that does not look at links. -/
theorem map_of_map_next {γ : Type} (key : TradeRow → γ)
    (hkey : ∀ t, key { t with next := none } = key t) {ts ts' : List TradeRow}
    (h : ts'.map (fun t => { t with next := none }) = ts.map fun t => { t with next := none }) :
    ts'.map key = ts.map key := by
  have := congrArg (List.map key) h
  simpa only [List.map_map, Function.comp_def, hkey] using this

/-- A key of the account rows that does not read the head of a list survives relinking. -/
theorem map_of_map_first {γ : Type} (key : AccountRow → γ)
    (hkey : ∀ a, key { a with firstTrade := none } = key a) {as as' : List AccountRow}
    (h : as'.map (fun a => { a with firstTrade := none }) =
      as.map fun a => { a with firstTrade := none }) : as'.map key = as.map key := by
  have := congrArg (List.map key) h
  simpa only [List.map_map, Function.comp_def, hkey] using this

/-- Compaction keeps soundness: the trades kept have their ids, the index is made anew of them, and
the links made anew are rows of the table. -/
theorem sound_closeAndCompact {s s' : PartitionState} (hs : s.Sound)
    (h : s.closeAndCompactTrades = .ok s') : s'.Sound := by
  unfold closeAndCompactTrades at h
  split_ifs at h
  · simp only [bind, except_bind_eq_ok] at h
    obtain ⟨⟨trades, accounts⟩, hrel, h⟩ := h
    simp only [Except.ok.injEq] at h
    have hsub := List.filter_sublist (l := s.trades) (p := fun t => !closes s.window t)
    have hlen := hsub.length_le
    have hcap : s.trades.length ≤ s.cap.trades.toNat := by simpa [tradeKeys] using hs.trades.le
    have hcap' := s.cap.trades.toNat_lt
    obtain ⟨h1, h2, h3, h4⟩ := relink_rows (P := LinkOk) hrel
      (fun a ha => by
        obtain ⟨b, -, rfl⟩ := List.mem_map.mp ha
        exact fun n hn => by simp at hn)
      (fun j _ hj n hn => by obtain rfl := Option.some.inj hn; omega)
    have hids := map_of_map_next (·.tradeId) (fun _ => rfl) h1
    have hdocs : accounts.map (·.document) = s.accounts.map (·.document) := by
      have := map_of_map_first (·.document) (fun _ => rfl) h2
      simpa only [List.map_map, Function.comp_def] using this
    -- the ids are a part of those before, so they stay distinct
    have hnd : (trades.map (·.tradeId)).Nodup := by
      rw [hids]
      exact hs.trades.index.nodup.sublist (hsub.map _)
    have hle : (trades.map (·.tradeId)).length ≤ s.tradeKeys.length := by
      rw [hids, tradeKeys, List.length_map, List.length_map]
      exact hlen
    rw [← h]
    refine { hs with accounts := ?_, accountRows := h4, trades := ?_, tradeRows := ?_ }
    · simpa only [accountKeys, hdocs] using hs.accounts
    · exact hs.trades.of_rebuilt hnd hle
    · intro t ht
      have hown := map_of_map_next (fun t => (t.account, t.instrument)) (fun _ => rfl) h1
      have hmem : (t.account, t.instrument) ∈ (s.trades.filter fun t => !closes s.window t).map
          fun t => (t.account, t.instrument) := hown ▸ List.mem_map_of_mem ht
      obtain ⟨t₀, ht₀, heq⟩ := List.mem_map.mp hmem
      obtain ⟨ha, hi⟩ := Prod.mk.inj heq
      have hrow := hs.tradeRows t₀ (hsub.subset ht₀)
      exact ⟨ha ▸ hrow.1, hi ▸ hrow.2.1, h3 t ht⟩
  · obtain rfl := Except.ok.inj h
    exact hs

/-- A map over the rows of a table, row by row. -/
theorem mapM_forall₂ {γ : Type} {f : γ → Exec γ} : ∀ {rows rows' : List γ},
    rows.mapM f = .ok rows' → List.Forall₂ (fun r r' => f r = .ok r') rows rows'
  | [], rows', h => by
    obtain rfl : rows' = [] := by simpa [pure, Except.pure, eq_comm] using h
    exact .nil
  | r :: rows, rows', h => by
    simp only [List.mapM_cons, bind, except_bind_eq_ok] at h
    obtain ⟨r', hr, rs, hrs, h⟩ := h
    obtain rfl := Except.ok.inj h
    exact .cons hr (mapM_forall₂ hrs)

/-- Rows changed one by one, each with its key, have the keys that they had. -/
theorem map_eq_of_forall₂ {γ κ : Type} {f : γ → Exec γ} (key : γ → κ)
    (hf : ∀ r, Returns (f r) fun r' => key r' = key r) {rows rows' : List γ}
    (h : List.Forall₂ (fun r r' => f r = .ok r') rows rows') : rows'.map key = rows.map key := by
  induction h with
  | nil => rfl
  | cons hr _ ih => rw [List.map_cons, List.map_cons, ih, hf _ _ hr]

/-- Opening a day keeps soundness: the rotation changes no key, and the compaction follows. -/
theorem sound_openDay {e : DayOpened} {s s' : PartitionState} (hs : s.Sound)
    (h : openDay e s = .ok s') : s'.Sound := by
  simp only [openDay, bind, except_bind_eq_ok] at h
  obtain ⟨custody, hc, accounts, ha, h⟩ := h
  -- the rotation leaves the owners of the rows, so the keys are the same
  have hown := map_eq_of_forall₂ (fun c => (c.account, c.instrument))
    (fun c c' hc' => by
      obtain ⟨h1, h2⟩ := keepsOwner_rotateCustody _ _ c c' hc'
      rw [h1, h2]) (mapM_forall₂ hc)
  have hacc := map_eq_of_forall₂ (fun a => (a.document, a.firstTrade))
    (fun a a' ha' => by
      obtain ⟨h1, h2⟩ := keepsAccount_rotateCash _ _ a a' ha'
      rw [h1, h2]) (mapM_forall₂ ha)
  refine sound_closeAndCompact ?_ h
  refine { hs with
    accounts := ?_
    positions := ?_
    custodyRows := ?_
    accountRows := ?_
    actions := hs.actions.maybeRotate _ _
    income := hs.income.maybeRotate _ _ }
  · have hkeys := congrArg (List.map Prod.fst) hacc
    simp only [List.map_map, Function.comp_def] at hkeys
    simpa only [accountKeys, hkeys] using hs.accounts
  · have hkeys := congrArg (List.map fun p => positionKey p.1 p.2) hown
    simp only [List.map_map, Function.comp_def] at hkeys
    simpa only [positionKeys, hkeys] using hs.positions
  · intro c hmem
    obtain ⟨c₀, hc₀, heq⟩ := List.mem_map.mp (hown ▸ List.mem_map_of_mem hmem :
      (c.account, c.instrument) ∈ s.custody.map fun c => (c.account, c.instrument))
    obtain ⟨h1, h2⟩ := Prod.mk.inj heq
    exact h1 ▸ h2 ▸ hs.custodyRows c₀ hc₀
  · intro a hmem
    obtain ⟨a₀, ha₀, heq⟩ := List.mem_map.mp (hacc ▸ List.mem_map_of_mem hmem :
      (a.document, a.firstTrade) ∈ s.accounts.map fun a => (a.document, a.firstTrade))
    exact (Prod.mk.inj heq).2 ▸ hs.accountRows a₀ ha₀

/-! ### Handlers -/

/-- A sound state stays sound. -/
def Safe (J : List TradeRow → StateCapacity → Prop) (m : Apply α) : Prop :=
  Proc.Ensures (fun e : Engine => e.s.Sound ∧ J e.s.trades e.s.cap) m (fun _ e => e.s.Sound)
    (fun _ e => e.s.Sound)

/-- The last part of a handler is only asked for soundness. -/
theorem Safe.bind {φ : α → Prop} {m : Apply α} {f : α → Apply β} (hm : Keeps J φ m)
    (hf : ∀ a, φ a → Safe J (f a)) : Safe J (m >>= f) := by
  refine Proc.Ensures.bind hm fun a => ?_
  rintro e r e' ⟨ha, he⟩ h
  exact hf a ha e r e' he h

/-- What keeps a condition besides soundness keeps soundness. -/
theorem Keeps.safe {φ : α → Prop} {m : Apply α} (h : Keeps J φ m) : Safe J m :=
  Proc.Ensures.mono h (fun _ he => he) (fun _ _ he => he.2.1) fun _ _ he => he

/-- The last change of a handler need not leave the trade table as `J` wants it. -/
theorem Safe.change {f : PartitionState → Exec PartitionState}
    (h : ∀ s s', s.Sound → J s.trades s.cap → f s = .ok s' → s'.Sound) : Safe J (change f) :=
  Proc.Ensures.update fun e e' he hf => by
    obtain ⟨s', hs', rfl⟩ := map_eq_ok.mp hf
    exact h e.s s' he.1 he.2 hs'

/-- After a step that is safe on its own nothing is known of the trades. -/
theorem Safe.then {m : Apply α} {f : α → Apply β} (hm : Safe J m)
    (hf : ∀ a, Safe anyTrades (f a)) : Safe J (m >>= f) :=
  Proc.Ensures.bind hm fun a => Proc.Ensures.mono (hf a) (fun _ he => ⟨he, trivial⟩)
    (fun _ _ he => he) fun _ _ he => he

theorem safe_applyDayOpened (ev : EventView) : Safe anyTrades (applyDayOpened ev) := by
  refine .bind (keeps_decode _ _ _) fun e _ => ?_
  refine .bind (.guard _ _) fun _ _ => ?_
  refine .bind .look_true fun today _ => ?_
  refine .bind (.guard _ _) fun _ _ => ?_
  exact .change fun s s' hs _ h => sound_openDay hs h

/-- The trade id is new and the table has room. -/
def Fresh (tradeId : UInt64) (trades : List TradeRow) (cap : StateCapacity) : Prop :=
  trades.length < cap.trades.toNat ∧ tradeId ∉ trades.map (·.tradeId)

/-- Once the trade id is known to be new, `Fresh` is carried along. -/
theorem Safe.fresh {tradeId : UInt64} {f : Apply PUnit} (hf : Safe (Fresh tradeId) f) :
    Safe anyTrades (do
      let full ← Apply.look fun s => .ok (decide (s.cap.tables.trades.toNat ≤ s.trades.length))
      Proc.guard (full = false) (Status.fail .arenaExhausted)
      let known ← Apply.look fun s => .ok (s.tradeIndex.contains tradeId)
      Proc.guard (known = false) (Status.fail .alreadyApplied)
      f) := by
  refine Proc.Ensures.of_forall fun e₀ he₀ => ?_
  refine Proc.Ensures.bind (Q := fun full e => e = e₀ ∧
    full = decide (e₀.s.cap.tables.trades.toNat ≤ e₀.s.trades.length)) ?_ fun full => ?_
  · exact Proc.Ensures.query fun e a he ha => ⟨he, by rw [← he]; exact (Except.ok.inj ha).symm⟩
  refine Proc.Ensures.bind (Q := fun _ e => e = e₀ ∧ e₀.s.trades.length < e₀.s.cap.trades.toNat) ?_
    fun _ => ?_
  · refine Proc.Ensures.guard (fun e he hc => ⟨he.1, ?_⟩) fun e he _ => he.1 ▸ he₀.1
    have := hc ▸ he.2
    rw [← he₀.1.table_trades]
    simpa using this.symm
  refine Proc.Ensures.bind (Q := fun known e => (e = e₀ ∧
    e₀.s.trades.length < e₀.s.cap.trades.toNat) ∧ known = e₀.s.tradeIndex.contains tradeId) ?_
    fun known => ?_
  · exact Proc.Ensures.query fun e a he ha => ⟨he, by rw [← he.1]; exact (Except.ok.inj ha).symm⟩
  refine Proc.Ensures.bind
    (Q := fun _ (e : Engine) => e.s.Sound ∧ Fresh tradeId e.s.trades e.s.cap) ?_ fun _ => hf
  refine Proc.Ensures.guard (fun e he hc => ?_) fun e he _ => he.1.1 ▸ he₀.1
  obtain ⟨⟨rfl, hlt⟩, hk⟩ := he
  refine ⟨he₀.1, hlt, fun hmem => ?_⟩
  obtain ⟨i, hi⟩ := List.mem_iff_getElem?.mp hmem
  have hfind := (he₀.1.trades.index.find tradeId i).mpr hi
  rw [hc, DenseIndex.contains, hfind] at hk
  simp at hk

/-- Inserting a new trade with numbers that fit. -/
theorem sound_insertTrade {e : TradeExecuted} {acct inst : ℕ} {cash : Raw} {s s' : PartitionState}
    (hs : s.Sound) (hfresh : Fresh e.tradeId s.trades s.cap) (ha : acct < 2 ^ 32)
    (hi : inst < 2 ^ 32) (h : insertTrade e acct inst cash s = .ok s') : s'.Sound := by
  simp only [insertTrade, bind, except_bind_eq_ok] at h
  obtain ⟨a, hrow, h⟩ := h
  have hlen : s.tradeKeys.length = s.trades.length := by simp [tradeKeys]
  have hcap := s.cap.trades.toNat_lt
  obtain ⟨i, hi', -⟩ | ⟨-, t, hins, ht⟩ := hs.trades.insert (hlen ▸ hfresh.1) e.tradeId
  · exact absurd (List.mem_of_getElem? hi') hfresh.2
  · rw [hlen] at hins
    obtain rfl := Except.ok.inj h
    have hfirst := sound_setFirst hs (rowAt_eq_ok.mp hrow) (l := some s.trades.length)
      fun n hn => by obtain rfl := Option.some.inj hn; have := hfresh.1; omega
    refine { hfirst with trades := ?_, tradeRows := ?_ }
    · simpa [tradeKeys, hins] using ht
    · intro r hr
      rcases List.mem_append.mp hr with hr | hr
      · exact hs.tradeRows r hr
      · obtain rfl := List.mem_singleton.mp hr
        exact ⟨ha, hi, hs.accountRows a (List.mem_of_getElem? (rowAt_eq_ok.mp hrow))⟩

/-- An execution inserts a trade whose id was looked up before, where the table has room. -/
theorem safe_applyTradeExecuted (ev : EventView) : Safe anyTrades (applyTradeExecuted ev) := by
  refine .bind (keeps_decode _ _ _) fun e _ => Safe.fresh ?_
  refine .bind (keeps_account _) fun acct ha => ?_
  refine .bind (keeps_instrument _) fun inst hi => ?_
  refine .bind .look_true fun described _ => ?_
  refine .bind (.guard _ _) fun _ _ => ?_
  refine .bind (keeps_slot _) fun k _ => ?_
  refine .bind (keeps_position ha hi) fun pos _ => ?_
  refine .bind (.guard _ _) fun _ _ => ?_
  refine .bind (.guard _ _) fun _ _ => ?_
  refine .bind (.guard _ _) fun _ _ => ?_
  refine .bind (.lift _) fun gross _ => ?_
  refine .bind (.orFail _ _) fun fees _ => ?_
  refine .bind .look_true fun c _ => ?_
  refine .bind (.guard _ _) fun _ _ => ?_
  refine .bind (.lift _) fun cash _ => ?_
  refine .bind (keeps_modCustody _ (keepsOwner_executeCustody _ _)) fun _ _ => ?_
  refine .bind (keeps_modAccount _ (keepsAccount_addPending _ _)) fun _ _ => ?_
  refine .then (.change fun s s' hs hfresh h => sound_insertTrade hs hfresh ha hi h) fun _ => ?_
  exact .bind (keeps_checkBuckets _) fun _ _ => (keeps_publicaPosicao _ _).safe

/-- A trade taken off one list is put in front of another. -/
theorem sound_relinkTrade {de para t : ℕ} {s s' : PartitionState} (hs : s.Sound)
    (hpara : para < 2 ^ 32) (ht : t < 2 ^ 32 - 1) (h : relinkTrade de para t s = .ok s') :
    s'.Sound := by
  simp only [relinkTrade, bind, except_bind_eq_ok] at h
  obtain ⟨⟨b, s₁⟩, hun, a, ha, rows, hrows, h⟩ := h
  have hs₁ := sound_unlinkTrade hs hun
  obtain ⟨r, r', hr, hr', rfl⟩ := modRow_eq_ok.mp hrows
  simp only [Except.ok.injEq] at h hr'
  have hacc := rowAt_eq_ok.mp ha
  have hrow := hs₁.tradeRows r (List.mem_of_getElem? hr)
  have hfirst := sound_setFirst hs₁ hacc (l := some t)
    fun n hn => by obtain rfl := Option.some.inj hn; exact ht
  rw [← h]
  refine sound_setTrade hfirst hr (hr' ▸ rfl) ?_
  rw [← hr']
  exact ⟨hpara, hrow.2.1, hs₁.accountRows a (List.mem_of_getElem? hacc)⟩

/-- An allocation interns the position it needs and moves buckets, money and links. -/
theorem keeps_moveAllocation (e : TradeAllocated) (k : Fin 3) {de para inst t : ℕ}
    (hde : de < 2 ^ 32) (hpara : para < 2 ^ 32) (hi : inst < 2 ^ 32) (ht : t < 2 ^ 32 - 1) :
    Keeps anyTrades (fun _ => True) (moveAllocation e k de para inst t) := by
  refine .bind (keeps_internPosition hde hi) fun rDe _ => ?_
  refine .bind (keeps_internPosition hpara hi) fun rPara _ => ?_
  refine .bind (.orFail _ _) fun posDe _ => ?_
  refine .bind (.orFail _ _) fun posPara _ => ?_
  refine .bind (φ := fun _ => True) ?_ fun _ _ => ?_
  · refine .bind .look_true fun cDe _ => .bind .look_true fun cPara _ => ?_
    exact .bind (.guard _ _) fun _ _ => (Keeps.guard _ _).mono fun _ _ => trivial
  refine .bind (keeps_modCustody _ (keepsOwner_allocateFrom _ _)) fun _ _ => ?_
  refine .bind (keeps_modCustody _ (keepsOwner_allocateTo _ _)) fun _ _ => ?_
  refine .bind (keeps_modAccount _ (keepsAccount_subPending _ _)) fun _ _ => ?_
  refine .bind (keeps_modAccount _ (keepsAccount_addPending _ _)) fun _ _ => ?_
  refine .bind (.change fun s s' hs _ h => ⟨sound_relinkTrade hs hpara ht h, trivial⟩) fun _ _ => ?_
  exact .bind (keeps_checkBuckets _) fun _ _ => keeps_checkBuckets _

/-- An allocation finds its trade through the index, so the number of its row fits a link. -/
theorem safe_applyTradeAllocated (ev : EventView) : Safe anyTrades (applyTradeAllocated ev) := by
  refine .bind (keeps_decode _ _ _) fun e _ => ?_
  refine .bind (φ := fun found => ∀ t, found = some t → t < 2 ^ 32 - 1)
    (.look fun s found hs h t ht => ?_) fun found hfound => ?_
  · obtain rfl := Except.ok.inj h
    exact lt_of_key hs.trades ((hs.trades.index.find _ _).mp ht)
  refine .bind (.orFail _ _) fun t ht => ?_
  refine .bind (φ := fun r => r.instrument < 2 ^ 32)
    (.look fun s r hs h => ?_) fun trade htrade => ?_
  · exact (hs.tradeRows r (List.mem_of_getElem? (rowAt_eq_ok.mp h))).2.1
  refine .bind (.lift _) fun next _ => ?_
  refine .bind (.guard _ _) fun _ _ => ?_
  refine .bind (keeps_internAccount _) fun rDe hDe => ?_
  refine .bind (keeps_internAccount _) fun rPara hPara => ?_
  refine .bind (.orFail _ _) fun de hde => ?_
  refine .bind (.orFail _ _) fun para hpara => ?_
  refine .bind (keeps_slot _) fun k _ => ?_
  refine .bind (.guard _ _) fun _ _ => ?_
  refine .bind (φ := fun _ => True) (.ite (fun _ => ?_) fun _ => .pure trivial) fun _ _ => ?_
  · exact keeps_moveAllocation e k (hDe de hde) (hPara para hpara) htrade (hfound t ht)
  refine .change fun s s' hs _ h => ?_
  obtain ⟨rows, hrows, rfl⟩ := map_eq_ok.mp h
  obtain ⟨r, r', hr, hr', rfl⟩ := modRow_eq_ok.mp hrows
  obtain rfl := Except.ok.inj hr'
  exact sound_setTrade hs hr rfl (hs.tradeRows r (List.mem_of_getElem? hr))

theorem safe_applyBatchNetted (ev : EventView) : Safe anyTrades (applyBatchNetted ev) := by
  refine .bind (keeps_decode _ _ _) fun e _ => ?_
  refine .bind (keeps_account _) fun acct _ => ?_
  refine .bind (keeps_slot _) fun k _ => ?_
  refine .bind .look_true fun a _ => ?_
  refine .bind (φ := fun _ => True) (.ite (fun _ => ?_) fun _ => .pure trivial) fun _ _ => ?_
  · exact .bind (keeps_pushException _ _) fun _ _ => .fail _
  refine .bind (keeps_advanceAccount _ _ _) fun n _ => ?_
  exact Keeps.safe (.ite (fun _ => keeps_pushException _ _) fun _ => .pure trivial)

/-- A settlement changes one custody row and one account row. -/
theorem keeps_settleBuckets (e : TradeSettled) (acct pos : ℕ) (outcome : SettleOutcome) :
    Keeps J (fun _ => True) (settleBuckets e acct pos outcome) := by
  cases outcome with
  | settled =>
    refine .bind (keeps_slot _) fun k _ => ?_
    refine .bind .look_true fun c _ => ?_
    refine .bind (.guard _ _) fun _ _ => ?_
    refine .bind (keeps_modCustody _ (keepsOwner_settleCustody _ _)) fun _ _ => ?_
    exact keeps_modAccount _ (keepsAccount_settleCash _ _)
  | deliveryFailure =>
    refine .bind (keeps_slot _) fun k _ => ?_
    refine .bind .look_true fun c _ => ?_
    refine .bind (.guard _ _) fun _ _ => ?_
    refine .bind (keeps_modCustody _ (keepsOwner_failCustody _ _)) fun _ _ => ?_
    refine .bind (keeps_modAccount _ (keepsAccount_failCash _ _)) fun _ _ => ?_
    exact keeps_pushException _ _
  | boughtIn =>
    refine .bind .look_true fun c _ => ?_
    refine .bind (.guard _ _) fun _ _ => ?_
    refine .bind (keeps_modCustody _ (keepsOwner_buyInCustody _)) fun _ _ => ?_
    exact keeps_modAccount _ (keepsAccount_buyInCash _)

theorem safe_applyTradeSettled (ev : EventView) : Safe anyTrades (applyTradeSettled ev) := by
  refine .bind (keeps_decode _ _ _) fun e _ => ?_
  refine .bind (keeps_account _) fun acct _ => ?_
  refine .bind (keeps_instrument _) fun inst _ => ?_
  refine .bind .look_true fun found _ => ?_
  refine .bind (.orFail _ _) fun pos _ => ?_
  refine .bind (.orFail _ _) fun outcome _ => ?_
  refine .bind (keeps_settleBuckets _ _ _ _) fun _ _ => ?_
  refine .bind (keeps_advanceAccount _ _ _) fun _ _ => ?_
  exact .bind (keeps_checkBuckets _) fun _ _ => (keeps_publicaPosicao _ _).safe

theorem keeps_refusedBy (actionId : UInt64) (r : OpenTable.Inserted Unit) :
    Keeps J (fun _ => True) (refusedBy actionId r) := by
  cases r with
  | present v => exact .fail _
  | added => exact .pure trivial
  | full => exact .fail _

/-- A key of an action is made of an id and the number of a row. -/
theorem keeps_consumeAction (actionId : UInt64) {acct : ℕ} (ha : acct < 2 ^ 32) :
    Keeps J (fun _ => True) (consumeAction actionId acct) := by
  refine .bind (φ := fun _ => True) (.ask fun s hs => ⟨trivial, ?_, rfl, rfl⟩) fun r _ =>
    keeps_refusedBy actionId r
  exact { hs with actions := hs.actions.insert actionId ha }

/-- A key of an income is made of an id and the number of a row. -/
theorem keeps_consumeIncome (actionId : UInt64) {acct : ℕ} (ha : acct < 2 ^ 32) :
    Keeps J (fun _ => True) (consumeIncome actionId acct) := by
  refine .bind (φ := fun _ => True) (.ask fun s hs => ⟨trivial, ?_, rfl, rfl⟩) fun r _ =>
    keeps_refusedBy actionId r
  exact { hs with income := hs.income.insert actionId ha }

/-- Each type of action changes one custody row, and some the account. -/
theorem keeps_actOn (e : CorporateActionApplied) (acct pos : ℕ) (base : Raw) (type : ActionType) :
    Keeps J (fun _ => True) (actOn e acct pos base type) := by
  have hsplit : Keeps J (fun _ => True) (actSplit e pos base) := by
    refine .bind (keeps_modCustody _ (keepsOwner_splitCustody _ _)) fun _ _ => ?_
    exact .bind .look_true fun c _ => .bind (.lift _) fun today _ => .lift _
  cases type with
  | split => exact hsplit
  | reverseSplit => exact hsplit
  | bonus =>
    refine .bind (.lift _) fun x _ => ?_
    refine .bind (.lift _) fun whole _ => ?_
    refine .bind (.guard _ _) fun _ _ => ?_
    refine .bind (.lift _) fun cost _ => ?_
    refine .bind (keeps_modCustody _ fun c => ?_) fun _ _ => .lift _
    exact .bind fun _ _ => .bind fun _ _ => .bind fun _ _ => .ok ⟨rfl, rfl⟩
  | subscription =>
    refine .bind (φ := fun _ => True) (.ite (fun _ => ?_) fun _ => .pure trivial) fun _ _ => ?_
    · exact .bind (.lift _) fun x _ => (Keeps.guard _ _).mono fun _ _ => trivial
    refine .bind (keeps_modCustody _ fun c => ?_) fun _ _ => ?_
    · exact .bind fun _ _ => .bind fun _ _ => .ok ⟨rfl, rfl⟩
    refine .bind (keeps_modAccount _ fun a => ?_) fun _ _ => .pure trivial
    exact .bind fun _ _ => .ok ⟨rfl, rfl⟩
  | leftoversAuction =>
    refine .bind .look_true fun c _ => ?_
    refine .bind (.lift _) fun delta _ => ?_
    refine .bind (keeps_modCustody _ fun c => .ok ⟨rfl, rfl⟩) fun _ _ => ?_
    refine .bind (keeps_modAccount _ fun a => ?_) fun _ _ => .pure trivial
    exact .bind fun _ _ => .ok ⟨rfl, rfl⟩

theorem safe_applyCorporateAction (ev : EventView) : Safe anyTrades (applyCorporateAction ev) := by
  refine .bind (keeps_decode _ _ _) fun e _ => ?_
  refine .bind (keeps_account _) fun acct ha => ?_
  refine .bind (keeps_instrument _) fun inst hi => ?_
  refine .bind (keeps_position ha hi) fun pos _ => ?_
  refine .bind (.orFail _ _) fun type _ => ?_
  refine .bind (.guard _ _) fun _ _ => ?_
  refine .bind (keeps_consumeAction _ ha) fun _ _ => ?_
  refine .bind .look_true fun c _ => ?_
  refine .bind (.lift _) fun base _ => ?_
  refine .bind (keeps_actOn _ _ _ _ _) fun delta _ => ?_
  refine .bind (keeps_modAccount _ fun a => ?_) fun _ _ => ?_
  · exact .bind fun _ _ => .ok ⟨rfl, rfl⟩
  refine .bind (φ := fun _ => True) (.ite (fun _ => keeps_pushException _ _) fun _ => .pure trivial)
    fun _ _ => ?_
  exact .bind (keeps_checkBuckets _) fun _ _ => (keeps_publicaPosicao _ _).safe

theorem safe_applyDividendPaid (ev : EventView) : Safe anyTrades (applyDividendPaid ev) := by
  refine .bind (keeps_decode _ _ _) fun e _ => ?_
  refine .bind (keeps_account _) fun acct ha => ?_
  refine .bind (.lift _) fun net _ => ?_
  refine .bind (.guard _ _) fun _ _ => ?_
  refine .bind (.guard _ _) fun _ _ => ?_
  refine .bind (.lift _) fun expected _ => ?_
  refine .bind (φ := fun _ => True) (.ite (fun _ => ?_) fun _ => .pure trivial) fun _ _ => ?_
  · exact .bind (keeps_pushException _ _) fun _ _ => .fail _
  refine .bind (keeps_consumeIncome _ ha) fun _ _ => ?_
  exact (keeps_modAccount _ (keepsAccount_creditIncome _)).safe

theorem safe_applyClosingPrice (ev : EventView) : Safe anyTrades (applyClosingPrice ev) := by
  refine .bind (keeps_decode _ _ _) fun e _ => ?_
  refine .bind (.guard _ _) fun _ _ => ?_
  refine .bind (keeps_instrument _) fun inst _ => ?_
  refine (keeps_modInstrument _ fun i i' h => ?_).safe
  obtain rfl := Except.ok.inj h
  rfl

/-- Divergences are counted and pushed one after the other. -/
theorem sound_recordDivergences (date : DateYmd) (ds : List Divergence) :
    ∀ {s : PartitionState}, s.Sound → (recordDivergences date ds s).Sound := by
  induction ds with
  | nil => exact fun hs => hs
  | cons d ds ih => exact fun hs => ih (sound_pushException hs _ _).1

theorem safe_applyCustodyReconciled (ev : EventView) :
    Safe anyTrades (applyCustodyReconciled ev) := by
  refine .bind (keeps_decode _ _ _) fun date _ => ?_
  refine .bind (.ofExcept _) fun ds _ => ?_
  refine .change fun s s' hs _ h => ?_
  obtain rfl := Except.ok.inj h
  exact sound_recordDivergences date ds hs

theorem safe_applyEodMarked (ev : EventView) : Safe anyTrades (applyEodMarked ev) := by
  refine .bind (keeps_decode _ _ _) fun e _ => ?_
  refine .bind .look_true fun custody _ => ?_
  refine .bind .look_true fun cash _ => ?_
  refine .bind (.guard _ _) fun _ _ => ?_
  refine .change fun s s' hs _ h => ?_
  obtain rfl := Except.ok.inj h
  exact { hs with }

/-- Every handler keeps soundness, and so does the dispatch over them. -/
theorem safe_dispatch (ev : EventView) : Safe anyTrades (dispatch ev) := by
  unfold dispatch
  split
  · rename_i t _
    cases t with
    | dayOpened => exact safe_applyDayOpened ev
    | tradeExecuted => exact safe_applyTradeExecuted ev
    | tradeAllocated => exact safe_applyTradeAllocated ev
    | batchNetted => exact safe_applyBatchNetted ev
    | tradeSettled => exact safe_applyTradeSettled ev
    | corporateActionApplied => exact safe_applyCorporateAction ev
    | dividendPaid => exact safe_applyDividendPaid ev
    | closingPriceSet => exact safe_applyClosingPrice ev
    | custodyReconciled => exact safe_applyCustodyReconciled ev
    | eodMarked => exact safe_applyEodMarked ev
  · exact (Keeps.fail (φ := fun _ => True) _).safe

end Apply

/-- `apply` keeps the state sound, whatever its status. -/
theorem sound_apply {e e' : Engine} {ev : EventView} {st : Status} (hs : e.s.Sound)
    (h : apply e ev = .ok (st, e')) : e'.s.Sound := by
  simp only [apply, bind, except_bind_eq_ok] at h
  obtain ⟨⟨r, e₁⟩, hd, h⟩ := h
  simp only [Except.ok.injEq, Prod.mk.injEq] at h
  have hs₁ : e₁.s.Sound := by
    have := Apply.safe_dispatch ev e r e₁ ⟨hs, trivial⟩ hd
    rcases r with st | u <;> exact this
  rw [← h.2]
  exact { hs₁ with }

end MotorRv
