import MotorRv.Core.TradeLists
import MotorRv.Lib.Aborts

/-!
# Every event ends

The only loops of the handlers that the size of a table does not bound walk the list of an account.
While the lists are linked such a walk visits each trade of the account once, so `apply` ends.

A walk has fuel for one visit of each row and aborts when it has used that up, so "ends" is a
statement about the abort and not about the model's own recursion, which always ends. On a linked
list the walk visits distinct rows of the table, hence it stays within the fuel (`ends_advance`,
`ends_unlinkTrade`); compaction and rotation go along the tables and need nothing.

`Tame` parts end from every state and keep the lists linked, and stand before a walk; `Halts` is for
the rest of a handler. `wellListed_of_session` joins this with the invariant of the lists along a
session: while no allocation is misplaced, every event ends. The counterexample is an allocation
that takes a trade from an account which does not hold it, and the walk after it.
-/

namespace MotorRv

open Lib PartitionState Apply

variable {α β : Type} {s s' : PartitionState}

/-- The computation does not run forever. -/
abbrev Ends (x : Exec α) : Prop := Avoids (· = Abort.endlessLoop) x

/-! ### Arithmetic and rows -/

/-- Checked arithmetic may panic, but it ends; so does everything put together from it. -/
@[simp] theorem ends_checkedRaw (x : ℤ) : Ends (checkedRaw x) := by
  simp [Ends, checkedRaw, avoids_ite]

@[simp] theorem ends_add (a b : Raw) : Ends (Fixed.add a b) := ends_checkedRaw _
@[simp] theorem ends_sub (a b : Raw) : Ends (Fixed.sub a b) := ends_checkedRaw _
@[simp] theorem ends_neg (a : Raw) : Ends (Fixed.neg a) := ends_checkedRaw _

/-- A rounded quotient ends in each of the four modes. -/
@[simp] theorem ends_mulDiv (mode : Rounding) (a b : Raw) (d : ℤ) : Ends (mulDiv mode a b d) := by
  cases mode with
  | towardZero => simp [Ends, mulDiv, avoids_ite]
  | towardNegInf => simp [Ends, mulDiv, avoids_ite]
  | halfUp => simp [Ends, mulDiv, avoids_ite]
  | halfEven => simp [Ends, mulDiv, avoids_ite]

@[simp] theorem ends_notional (q p : Raw) (f : UInt32) : Ends (notionalHalfEven q p f) := by
  simp [Ends, notionalHalfEven, avoids_ite]

@[simp] theorem ends_averagePrice (q p a c : Raw) : Ends (averagePriceHalfEven q p a c) := by
  simp [Ends, averagePriceHalfEven, positionCostHalfEven, avoids_bind, avoids_ite]

@[simp] theorem ends_scaleQtyTrunc (q : Raw) (num den : UInt32) :
    Ends (scaleQtyTrunc q num den) :=
  avoids_ite.mpr ⟨fun _ => by simp, fun _ => .bind (ends_mulDiv _ _ _ _) fun _ _ => avoids_ok _⟩

@[simp] theorem ends_scaleQtyKeepFraction (q : Raw) (num den : UInt32) :
    Ends (scaleQtyKeepFraction q num den) := by
  simp [Ends, scaleQtyKeepFraction, avoids_ite]

@[simp] theorem ends_scalePrice (p : Raw) (num den : UInt32) :
    Ends (scalePriceHalfEven p num den) := by
  simp [Ends, scalePriceHalfEven, avoids_ite]

/-- A sum ends, having one term less after each addition. -/
@[simp] theorem ends_sumRaw (xs : List Raw) : ∀ acc, Ends (sumRaw acc xs) := by
  induction xs with
  | nil => exact fun acc => avoids_pure acc
  | cons x xs ih => exact fun acc => .bind (ends_add acc x) fun y _ => ih y

@[simp] theorem ends_custodyToday (c : CustodyRow) : Ends c.custodyToday := ends_sumRaw _ _

/-- Reading outside of a table is an abort of another kind. -/
@[simp] theorem ends_rowAt (rows : List α) (i : ℕ) : Ends (rowAt rows i) := by
  unfold rowAt
  split
  · exact avoids_ok _
  · simp

/-- A row is changed without a loop, if what changes it has none. -/
theorem ends_modRow {rows : List α} {i : ℕ} {f : α → Exec α} (hf : ∀ r, Ends (f r)) :
    Ends (modRow rows i f) :=
  .bind (ends_rowAt rows i) fun r _ => .bind (hf r) fun _ _ => avoids_ok _

@[simp] theorem ends_nextOf (b : UInt8) (g : TradeTrigger) : Ends (nextOf b g) := by
  unfold nextOf
  split
  · exact avoids_ok _
  · simp

/-! ### Walks -/

/-- The walk to the link of a trade ends while the lists are linked, since a list visits each of its
trades once. -/
theorem ends_unlinkTrade (h : s.Linked) (acct t : ℕ) : Ends (unlinkTrade s acct t) := by
  refine .bind (ends_rowAt _ _) fun a ha => ?_
  obtain ⟨is, hchain, hle, -⟩ := h.chain (rowAt_eq_ok.mp ha)
  split
  · exact avoids_ok _
  · rename_i first hfirst
    rw [hfirst] at hchain
    refine avoids_ite.mpr ⟨fun _ => ?_, fun _ => .bind ?_ fun o _ => ?_⟩
    · exact .bind (ends_rowAt _ _) fun r _ => avoids_ok _
    · rcases predecessor_chain hchain hle (t := t) with ⟨xs, p, ys, hp, -⟩ | ⟨hp, -⟩
      · exact hp ▸ avoids_ok _
      · exact hp ▸ avoids_ok _
    · split
      · exact avoids_ok _
      · refine .bind (ends_rowAt _ _) fun r _ => .bind (ends_modRow ?_) fun rows _ => avoids_ok _
        exact fun q => avoids_ok _

/-- A walk with as much fuel as its chain is long; what it has done to the states of trades does
not change the links ahead. -/
theorem ends_advance {covered : TradeRow → Bool} {g : TradeTrigger} : ∀ {fuel : ℕ} {l : Option ℕ}
    {rows : List TradeRow} {is : List ℕ}, Chain (linkIn rows) l is → is.length ≤ fuel →
      Ends (advance covered g fuel l rows) := by
  intro fuel
  induction fuel with
  | zero =>
    intro l rows is hc hle
    cases hc with
    | nil => exact avoids_ok _
    | cons _ _ => simp at hle
  | succ fuel ih =>
    intro l rows is hc hle
    cases hc with
    | nil => exact avoids_ok _
    | @cons t l js ht hrest =>
      rw [List.length_cons] at hle
      refine .bind (ends_rowAt _ _) fun r hr => ?_
      replace hr := rowAt_eq_ok.mp hr
      obtain rfl := Option.some.inj ((linkIn_eq hr).symm.trans ht)
      refine avoids_ite.mpr ⟨fun _ => .bind (ends_nextOf _ _) fun st _ => ?_, fun _ => ?_⟩
      · refine avoids_ite.mpr ⟨fun _ => ih hrest (by omega), fun _ => .bind ?_ fun _ _ => ?_⟩
        · have hlinks : linkIn (rows.set t { r with state := st.code }) = linkIn rows := by
            have hcol : (rows.set t { r with state := st.code }).map (·.next) = rows.map (·.next) :=
              map_set_of_eq hr rfl
            unfold linkIn
            rw [hcol]
          exact ih (hlinks ▸ hrest) (by omega)
        · exact avoids_ok _
      · exact ih hrest (by omega)

/-- Relinking goes through the table once, not along the lists. -/
theorem ends_relink : ∀ (ts : List TradeRow) (i : ℕ) (as : List AccountRow),
    Ends (relink i ts as) := by
  intro ts
  induction ts with
  | nil => exact fun i as => avoids_ok _
  | cons t ts ih =>
    intro i as
    refine .bind (ih (i + 1) as) fun ⟨ts', as'⟩ _ => ?_
    dsimp only
    split
    · simp
    · exact avoids_ok _

/-- Compaction ends whatever the lists look like: all of its loops run over the table. -/
theorem ends_closeAndCompact (s : PartitionState) : Ends s.closeAndCompactTrades :=
  avoids_ite.mpr ⟨fun _ => .bind (ends_relink _ _ _) fun _ _ => avoids_ok _, fun _ => avoids_ok _⟩

/-! ### Parts of handlers -/

/-- The part ends from every state. -/
def Calm (m : Apply α) : Prop := ∀ e, Proc.Spares (· = Abort.endlessLoop) m e

/-- The part ends from every state with linked lists. -/
def Halts (m : Apply α) : Prop := ∀ e : Engine, e.s.Linked →
  Proc.Spares (· = Abort.endlessLoop) m e

/-- The part keeps the lists linked while the handler goes on. -/
def KeepsLinked (m : Apply α) : Prop :=
  Proc.Ensures (fun e : Engine => e.s.Linked) m (fun _ e => e.s.Linked) fun _ _ => True

/-- A part that comes before a walk. -/
structure Tame (m : Apply α) : Prop where
  calm : Calm m
  keeps : KeepsLinked m

/-- Two calm steps are calm one after the other. -/
theorem Calm.bind {m : Apply α} {f : α → Apply β} (hm : Calm m) (hf : ∀ a, Calm (f a)) :
    Calm (m >>= f) := fun e => .bind (hm e) fun a e' _ => hf a e'

/-- What ends from every engine ends from the linked ones. -/
theorem Calm.halts {m : Apply α} (h : Calm m) : Halts m := fun e _ => h e

/-- A walk may be followed by parts that do not walk. -/
theorem Halts.then {m : Apply α} {f : α → Apply β} (hm : Halts m) (hf : ∀ a, Calm (f a)) :
    Halts (m >>= f) := fun e he => .bind (hm e he) fun a e' _ => hf a e'

/-- A step that keeps the lists linked may stand before one that relies on them. -/
theorem Halts.bind {m : Apply α} {f : α → Apply β} (hm : Tame m) (hf : ∀ a, Halts (f a)) :
    Halts (m >>= f) :=
  fun e he => .bind (hm.calm e) fun a e' h => hf a e' (hm.keeps.ok he h)

/-- Two tame steps are tame one after the other. -/
theorem Tame.bind {m : Apply α} {f : α → Apply β} (hm : Tame m) (hf : ∀ a, Tame (f a)) :
    Tame (m >>= f) where
  calm := hm.calm.bind fun a => (hf a).calm
  keeps := Proc.Ensures.bind hm.keeps fun a => (hf a).keeps

theorem Tame.pure (a : α) : Tame (pure a : Apply α) :=
  ⟨fun _ => Proc.spares_pure a, Proc.Ensures.pure fun _ h => h⟩

theorem Tame.fail (st : Status) : Tame (Proc.fail st : Apply α) :=
  ⟨fun _ => Proc.spares_fail st, Proc.Ensures.fail fun _ _ => trivial⟩

theorem Tame.guard (c : Prop) [Decidable c] (st : Status) : Tame (Proc.guard c st : Apply PUnit) :=
  ⟨fun _ => Proc.spares_guard c st, Proc.Ensures.guard (fun _ h _ => h) fun _ _ _ => trivial⟩

theorem Tame.orFail (o : Option α) (st : Status) : Tame (Proc.orFail o st : Apply α) :=
  ⟨fun _ => Proc.spares_orFail o st, Proc.Ensures.orFail (fun _ _ h _ => h) fun _ _ _ => trivial⟩

theorem Tame.ofExcept (x : Except Status α) : Tame (Proc.ofExcept x : Apply α) :=
  ⟨fun _ => Proc.spares_ofExcept x, Proc.Ensures.ofExcept (fun _ _ h _ => h) fun _ _ _ _ => trivial⟩

/-- Looking at the state is tame where what is looked for is found without a loop. -/
theorem Tame.look {f : PartitionState → Exec α} (hf : ∀ s, Ends (f s)) : Tame (look f) :=
  ⟨fun e => Proc.spares_query.mpr (hf e.s), Proc.Ensures.query fun _ _ h _ => h⟩

theorem Tame.lift {x : Exec α} (hx : Ends x) : Tame (Proc.lift x : Apply α) :=
  ⟨fun _ => Proc.spares_query.mpr hx, Proc.Ensures.query fun _ _ h _ => h⟩

/-- Interning is tame where it keeps the lists linked. -/
theorem Tame.ask {f : PartitionState → α × PartitionState} (hf : ∀ s, s.Linked → (f s).2.Linked) :
    Tame (ask f) :=
  ⟨fun _ => Proc.spares_act, Proc.Ensures.act fun e h => hf e.s h⟩

/-- A change of the state that always ends is calm, whatever it does to the lists. -/
theorem Calm.change {f : PartitionState → Exec PartitionState} (hf : ∀ s, Ends (f s)) :
    Calm (change f) :=
  fun e => Proc.spares_update.mpr (avoids_map.mpr (hf e.s))

/-- A change of the state is tame where it ends and keeps the lists linked. -/
theorem Tame.change {f : PartitionState → Exec PartitionState} (hf : ∀ s, Ends (f s))
    (hk : ∀ s s', s.Linked → f s = .ok s' → s'.Linked) : Tame (change f) :=
  ⟨.change hf, Proc.Ensures.update fun e e' h h' => by
    obtain ⟨s', hs', rfl⟩ := map_eq_ok.mp h'
    exact hk e.s s' h hs'⟩

/-- A choice between tame steps is tame. -/
theorem Tame.ite {c : Prop} [Decidable c] {m n : Apply α} (hm : Tame m) (hn : Tame n) :
    Tame (if c then m else n) := by
  split_ifs
  · exact hm
  · exact hn

theorem tame_decode (t : Tmpl) (ofBytes : Bytes → α) (ev : EventView) :
    Tame (decode t ofBytes ev) := .bind (.guard _ _) fun _ => .pure _

theorem tame_slot (date : DateYmd) : Tame (slot date) :=
  .bind (.look fun _ => avoids_ok _) fun _ => .orFail _ _

theorem tame_internAccount (doc : UInt64) : Tame (ask fun s => s.internAccount doc) :=
  .ask fun _ h => h.kept ((Kept.refl _).internAccount doc)

theorem tame_internPosition (a i : ℕ) : Tame (ask fun s => s.internPosition a i) :=
  .ask fun _ h => h.kept ((Kept.refl _).internPosition a i)

theorem tame_account (doc : UInt64) : Tame (account doc) :=
  .bind (tame_internAccount doc) fun _ => .orFail _ _

theorem tame_instrument (id : UInt32) : Tame (instrument id) :=
  .bind (.ask fun _ h => h.kept ((Kept.refl _).internInstrument id)) fun _ => .orFail _ _

theorem tame_position (a i : ℕ) : Tame (position a i) :=
  .bind (tame_internPosition a i) fun _ => .orFail _ _

theorem tame_custodyAt (i : ℕ) : Tame (custodyAt i) := .look fun _ => ends_rowAt _ _
theorem tame_accountAt (i : ℕ) : Tame (accountAt i) := .look fun _ => ends_rowAt _ _
theorem tame_instrumentAt (i : ℕ) : Tame (instrumentAt i) := .look fun _ => ends_rowAt _ _
theorem tame_tradeAt (i : ℕ) : Tame (tradeAt i) := .look fun _ => ends_rowAt _ _

/-- A custody row carries no link, so changing one keeps the lists. -/
theorem tame_modCustody {pos : ℕ} {f : CustodyRow → Exec CustodyRow} (hf : ∀ c, Ends (f c)) :
    Tame (modCustody pos f) := by
  refine .change (fun s => avoids_map.mpr (ends_modRow hf)) fun s s' h hs' => ?_
  obtain ⟨rows, -, rfl⟩ := map_eq_ok.mp hs'
  exact h.ofRows rfl rfl

/-- An account row may be changed as long as the head of its list stays. -/
theorem tame_modAccount {acct : ℕ} {f : AccountRow → Exec AccountRow} (hf : ∀ a, Ends (f a))
    (hk : KeepsAccount f) : Tame (modAccount acct f) := by
  refine .change (fun s => avoids_map.mpr (ends_modRow hf)) fun s s' h hs' => ?_
  obtain ⟨rows, hrows, rfl⟩ := map_eq_ok.mp hs'
  obtain ⟨a, a', ha, ha', rfl⟩ := modRow_eq_ok.mp hrows
  exact h.ofRows (map_set_of_eq ha (hk a a' ha').2) rfl

/-- The ring of exceptions is apart from the lists. -/
theorem tame_pushException (r : ExceptionRecord) (m : Bool) : Tame (pushException r m) := by
  refine .change (fun s => avoids_ok _) fun s s' h hs' => ?_
  obtain rfl := Except.ok.inj hs'
  unfold PartitionState.pushException
  split
  · exact h
  · exact h.ofRows rfl rfl

/-- The check after a handler reads one row. -/
theorem calm_checkBuckets (pos : ℕ) : Calm (checkBuckets pos) :=
  ((tame_custodyAt pos).bind fun _ => .guard _ _).calm

/-- Publishing a position stages a record, which takes no loop. -/
theorem calm_publicaPosicao (ev : EventView) (pos : ℕ) : Calm (publicaPosicao ev pos) := by
  intro e
  unfold Proc.Spares publicaPosicao
  split
  · exact avoids_ok _
  · refine .bind (ends_rowAt _ _) fun c _ => .bind (ends_rowAt _ _) fun a _ => ?_
    refine .bind (ends_rowAt _ _) fun i _ => .bind ?_ fun ⟨st, o'⟩ _ => ?_
    · rintro d hd
      obtain rfl := Outbox.stage_eq_error hd
      simp
    · exact avoids_ite.mpr ⟨fun _ => avoids_ok _, fun _ => avoids_ok _⟩

/-- The trades of an account are advanced along its list, which ends while it is linked. -/
theorem halts_advanceAccount (acct : ℕ) (covered : TradeRow → Bool) (g : TradeTrigger) :
    Halts (advanceAccount acct covered g) := by
  intro e he
  refine Avoids.bind (ends_rowAt _ _) fun a ha => .bind ?_ fun _ _ => avoids_ok _
  obtain ⟨is, hchain, hle, -⟩ := he.chain (rowAt_eq_ok.mp ha)
  exact ends_advance hchain hle

/-! ### Rows of the handlers -/

/-- The rotation of a position goes through its three slots. -/
theorem ends_rotateCustody (old new : SettlementWindow) (c : CustodyRow) :
    Ends (rotateCustody old new c) := by
  have hslot : ∀ acc k, Ends (rotateCustodySlot old new c acc k) := by
    intro acc k
    refine avoids_ite.mpr ⟨fun _ => avoids_ok _, fun _ => ?_⟩
    split
    · exact .bind (ends_add _ _) fun _ _ => .bind (ends_add _ _) fun _ _ => avoids_ok _
    · exact .bind (ends_add _ _) fun _ _ => .bind (ends_add _ _) fun _ _ => avoids_ok _
  refine avoids_ite.mpr ⟨fun _ => avoids_ok _, fun _ => ?_⟩
  exact .bind (hslot _ 0) fun _ _ => .bind (hslot _ 1) fun _ _ => hslot _ 2

theorem ends_rotateCash (old new : SettlementWindow) (a : AccountRow) :
    Ends (rotateCash old new a) := by
  have hslot : ∀ acc k, Ends (rotateCashSlot old new a acc k) := by
    intro acc k
    refine avoids_ite.mpr ⟨fun _ => avoids_ok _, fun _ => ?_⟩
    split
    · exact .bind (ends_add _ _) fun _ _ => avoids_ok _
    · exact .bind (ends_add _ _) fun _ _ => avoids_ok _
  refine avoids_ite.mpr ⟨fun _ => avoids_ok _, fun _ => ?_⟩
  exact .bind (hslot _ 0) fun _ _ => .bind (hslot _ 1) fun _ _ => hslot _ 2

/-- Opening a day rotates the positions and the accounts and compacts, by loops over the tables. -/
theorem ends_openDay (e : DayOpened) (s : PartitionState) : Ends (openDay e s) :=
  .bind (.mapM fun _ _ => ends_rotateCustody _ _ _) fun _ _ =>
    .bind (.mapM fun _ _ => ends_rotateCash _ _ _) fun _ _ => ends_closeAndCompact _

theorem ends_addPending (k : Fin 3) (m : Raw) (a : AccountRow) : Ends (addPending k m a) :=
  .bind (ends_add _ _) fun _ _ => avoids_ok _

theorem ends_subPending (k : Fin 3) (m : Raw) (a : AccountRow) : Ends (subPending k m a) :=
  .bind (ends_sub _ _) fun _ _ => avoids_ok _

theorem ends_executeCustody (e : TradeExecuted) (k : Fin 3) (c : CustodyRow) :
    Ends (executeCustody e k c) :=
  avoids_ite.mpr ⟨fun _ => .bind (ends_add _ _) fun _ _ => avoids_ok _, fun _ =>
    .bind (ends_sub _ _) fun _ _ => .bind (ends_add _ _) fun _ _ => avoids_ok _⟩

theorem ends_tradeCash (e : TradeExecuted) (gross fees : Raw) : Ends (tradeCash e gross fees) :=
  avoids_ite.mpr ⟨fun _ => .bind (ends_add _ _) fun _ _ => ends_neg _, fun _ => ends_sub _ _⟩

theorem ends_allocateFrom (e : TradeAllocated) (k : Fin 3) (c : CustodyRow) :
    Ends (allocateFrom e k c) :=
  avoids_ite.mpr ⟨fun _ => .bind (ends_sub _ _) fun _ _ => avoids_ok _, fun _ =>
    .bind (ends_sub _ _) fun _ _ => .bind (ends_add _ _) fun _ _ => avoids_ok _⟩

theorem ends_allocateTo (e : TradeAllocated) (k : Fin 3) (c : CustodyRow) :
    Ends (allocateTo e k c) :=
  avoids_ite.mpr ⟨fun _ => .bind (ends_add _ _) fun _ _ => avoids_ok _, fun _ =>
    .bind (ends_add _ _) fun _ _ => .bind (ends_sub _ _) fun _ _ => avoids_ok _⟩

theorem ends_settleCustody (e : TradeSettled) (k : Fin 3) (c : CustodyRow) :
    Ends (settleCustody e k c) :=
  avoids_ite.mpr ⟨fun _ => .bind (ends_custodyToday _) fun _ _ =>
      .bind (ends_averagePrice _ _ _ _) fun _ _ => .bind (ends_sub _ _) fun _ _ =>
        .bind (ends_add _ _) fun _ _ => avoids_ok _,
    fun _ => .bind (ends_sub _ _) fun _ _ => avoids_ok _⟩

theorem ends_failCustody (e : TradeSettled) (k : Fin 3) (c : CustodyRow) :
    Ends (failCustody e k c) :=
  avoids_ite.mpr ⟨fun _ => .bind (ends_sub _ _) fun _ _ => .bind (ends_add _ _) fun _ _ =>
    avoids_ok _,
    fun _ => .bind (ends_sub _ _) fun _ _ => .bind (ends_add _ _) fun _ _ => avoids_ok _⟩

theorem ends_buyInCustody (e : TradeSettled) (c : CustodyRow) : Ends (buyInCustody e c) :=
  avoids_ite.mpr ⟨fun _ => .bind (ends_sub _ _) fun _ _ => .bind (ends_add _ _) fun _ _ =>
    avoids_ok _,
    fun _ => .bind (ends_sub _ _) fun _ _ => avoids_ok _⟩

/-- A split scales one bucket after the other. -/
theorem ends_splitCustody (num den : UInt32) (c : CustodyRow) : Ends (splitCustody num den c) := by
  refine .bind (ends_scaleQtyTrunc _ _ _) fun _ _ => .bind (ends_scaleQtyTrunc _ _ _) fun _ _ => ?_
  refine .bind (ends_add _ _) fun _ _ => ?_
  refine .bind (ends_scaleQtyKeepFraction _ _ _) fun _ _ => ?_
  refine .bind (ends_scaleQtyKeepFraction _ _ _) fun _ _ => ?_
  refine .bind (ends_scaleQtyKeepFraction _ _ _) fun _ _ => ?_
  refine .bind (ends_scaleQtyKeepFraction _ _ _) fun _ _ => ?_
  refine .bind (ends_scaleQtyKeepFraction _ _ _) fun _ _ => ?_
  refine .bind (ends_scaleQtyKeepFraction _ _ _) fun _ _ => ?_
  refine .bind (ends_scaleQtyKeepFraction _ _ _) fun _ _ => ?_
  refine .bind (ends_scaleQtyKeepFraction _ _ _) fun _ _ => ?_
  refine .bind (ends_scaleQtyTrunc _ _ _) fun _ _ => .bind (ends_add _ _) fun _ _ => ?_
  refine .bind (ends_add _ _) fun _ _ => .bind (ends_scalePrice _ _ _) fun _ _ => avoids_ok _

/-! ### Handlers -/

theorem halts_applyDayOpened (ev : EventView) : Halts (applyDayOpened ev) := by
  refine .bind (tame_decode _ _ _) fun e => .bind (.guard _ _) fun _ => ?_
  refine .bind (.look fun _ => avoids_ok _) fun today => .bind (.guard _ _) fun _ => ?_
  exact (Calm.change fun s => ends_openDay e s).halts

/-- An execution attaches its trade in front, without a walk. -/
theorem halts_applyTradeExecuted (ev : EventView) : Halts (applyTradeExecuted ev) := by
  refine .bind (tame_decode _ _ _) fun e => .bind (.look fun _ => avoids_ok _) fun full => ?_
  refine .bind (.guard _ _) fun _ => .bind (.look fun _ => avoids_ok _) fun known => ?_
  refine .bind (.guard _ _) fun _ => .bind (tame_account _) fun acct => ?_
  refine .bind (tame_instrument _) fun inst => .bind (tame_instrumentAt _) fun described => ?_
  refine .bind (.guard _ _) fun _ => .bind (tame_slot _) fun k => ?_
  refine .bind (tame_position _ _) fun pos => .bind (.guard _ _) fun _ => ?_
  refine .bind (.guard _ _) fun _ => .bind (.guard _ _) fun _ => ?_
  refine .bind (.lift (ends_notional _ _ _)) fun gross => .bind (.orFail _ _) fun fees => ?_
  refine .bind (tame_custodyAt _) fun c => .bind (.guard _ _) fun _ => ?_
  refine .bind (.lift (ends_tradeCash _ _ _)) fun cash => ?_
  refine .bind (tame_modCustody fun c => ends_executeCustody e k c) fun _ => ?_
  refine .bind (tame_modAccount (ends_addPending k cash)
    (keepsAccount_addPending k cash)) fun _ => ?_
  refine (Calm.bind (Calm.change fun s => ?_) fun _ => ?_).halts
  · exact .bind (ends_rowAt _ _) fun _ _ => avoids_ok _
  · exact (calm_checkBuckets _).bind fun _ => calm_publicaPosicao _ _

/-- An allocation walks along the list of the account it takes the trade from. -/
theorem halts_relinkTrade (de para t : ℕ) : Halts (change (relinkTrade de para t)) := by
  intro e he
  refine Proc.spares_update.mpr (avoids_map.mpr (.bind (ends_unlinkTrade he de t) fun _ _ => ?_))
  refine .bind (ends_rowAt _ _) fun _ _ => .bind (ends_modRow fun r => avoids_ok _) fun _ _ => ?_
  exact avoids_ok _

/-- The rows are changed first, and keep their lists for the walk that follows. -/
theorem halts_moveAllocation (e : TradeAllocated) (k : Fin 3) (de para inst t : ℕ) :
    Halts (moveAllocation e k de para inst t) := by
  refine .bind (tame_internPosition _ _) fun rDe => .bind (tame_internPosition _ _) fun rPara => ?_
  refine .bind (.orFail _ _) fun posDe => .bind (.orFail _ _) fun posPara => ?_
  have hcheck : Tame (checkAllocation e k posDe posPara) :=
    (tame_custodyAt _).bind fun _ => (tame_custodyAt _).bind fun _ =>
      (Tame.guard _ _).bind fun _ => .guard _ _
  refine .bind hcheck fun _ => ?_
  refine .bind (tame_modCustody fun c => ends_allocateFrom e k c) fun _ => ?_
  refine .bind (tame_modCustody fun c => ends_allocateTo e k c) fun _ => ?_
  refine .bind (tame_modAccount (ends_subPending k _) (keepsAccount_subPending k _)) fun _ => ?_
  refine .bind (tame_modAccount (ends_addPending k _) (keepsAccount_addPending k _)) fun _ => ?_
  exact .then (halts_relinkTrade de para t) fun _ =>
    (calm_checkBuckets _).bind fun _ => calm_checkBuckets _

/-- An allocation ends where its walk does. -/
theorem halts_applyTradeAllocated (ev : EventView) : Halts (applyTradeAllocated ev) := by
  refine .bind (tame_decode _ _ _) fun e => .bind (.look fun _ => avoids_ok _) fun found => ?_
  refine .bind (.orFail _ _) fun t => .bind (tame_tradeAt t) fun trade => ?_
  refine .bind (.lift (ends_nextOf _ _)) fun next => .bind (.guard _ _) fun _ => ?_
  refine .bind (tame_internAccount _) fun rDe => .bind (tame_internAccount _) fun rPara => ?_
  refine .bind (.orFail _ _) fun de => .bind (.orFail _ _) fun para => ?_
  refine .bind (tame_slot _) fun k => .bind (.guard _ _) fun _ => ?_
  refine .then ?_ fun _ => Calm.change fun s => ?_
  · split_ifs
    · exact halts_moveAllocation e k de para trade.instrument t
    · exact (Tame.pure _).calm.halts
  · exact avoids_map.mpr (ends_modRow fun r => avoids_ok _)

/-- Netting advances the trades of one account along its list. -/
theorem halts_applyBatchNetted (ev : EventView) : Halts (applyBatchNetted ev) := by
  refine .bind (tame_decode _ _ _) fun e => .bind (tame_account _) fun acct => ?_
  refine .bind (tame_slot _) fun k => .bind (tame_accountAt _) fun a => ?_
  refine .bind (.ite ((tame_pushException _ _).bind fun _ => .fail _) (.pure _)) fun _ => ?_
  refine .then (halts_advanceAccount _ _ _) fun counted => ?_
  exact (Tame.ite (tame_pushException _ _) (.pure _)).calm

/-- A settlement moves quantities and money between buckets and leaves the lists alone. -/
theorem tame_settleBuckets (e : TradeSettled) (acct pos : ℕ) (outcome : SettleOutcome) :
    Tame (settleBuckets e acct pos outcome) := by
  cases outcome with
  | settled =>
    refine .bind (tame_slot _) fun k => .bind (tame_custodyAt _) fun c =>
      .bind (.guard _ _) fun _ => ?_
    refine .bind (tame_modCustody fun c => ends_settleCustody e k c) fun _ => ?_
    refine tame_modAccount (fun a => ?_) (keepsAccount_settleCash k _)
    exact .bind (ends_add _ _) fun _ _ => .bind (ends_sub _ _) fun _ _ => avoids_ok _
  | deliveryFailure =>
    refine .bind (tame_slot _) fun k => .bind (tame_custodyAt _) fun c =>
      .bind (.guard _ _) fun _ => ?_
    refine .bind (tame_modCustody fun c => ends_failCustody e k c) fun _ => ?_
    refine .bind (tame_modAccount (fun a => ?_) (keepsAccount_failCash k _)) fun _ => ?_
    · exact .bind (ends_sub _ _) fun _ _ => .bind (ends_add _ _) fun _ _ => avoids_ok _
    · exact tame_pushException _ _
  | boughtIn =>
    refine .bind (tame_custodyAt _) fun c => .bind (.guard _ _) fun _ => ?_
    refine .bind (tame_modCustody fun c => ends_buyInCustody e c) fun _ => ?_
    refine tame_modAccount (fun a => ?_) (keepsAccount_buyInCash _)
    exact .bind (ends_sub _ _) fun _ _ => .bind (ends_add _ _) fun _ _ => avoids_ok _

/-- A settlement moves the buckets and then advances trades along a list that is still linked. -/
theorem halts_applyTradeSettled (ev : EventView) : Halts (applyTradeSettled ev) := by
  refine .bind (tame_decode _ _ _) fun e => .bind (tame_account _) fun acct => ?_
  refine .bind (tame_instrument _) fun inst => .bind (.look fun _ => avoids_ok _) fun found => ?_
  refine .bind (.orFail _ _) fun pos => .bind (.orFail _ _) fun outcome => ?_
  refine .bind (tame_settleBuckets e acct pos outcome) fun _ => ?_
  refine .then (halts_advanceAccount _ _ _) fun _ => ?_
  exact (calm_checkBuckets _).bind fun _ => calm_publicaPosicao _ _

/-- A corporate action changes rows, none of them a link. -/
theorem tame_actOn (e : CorporateActionApplied) (acct pos : ℕ) (base : Raw) (type : ActionType) :
    Tame (actOn e acct pos base type) := by
  have hsplit : Tame (actSplit e pos base) := by
    refine .bind (tame_modCustody fun c => ends_splitCustody _ _ c) fun _ => ?_
    refine .bind (tame_custodyAt _) fun c => .bind (.lift (ends_custodyToday _)) fun today => ?_
    exact .lift (ends_sub _ _)
  cases type with
  | split => exact hsplit
  | reverseSplit => exact hsplit
  | bonus =>
    refine .bind (.lift (ends_scaleQtyTrunc _ _ _)) fun ⟨total, rest⟩ => ?_
    refine .bind (.lift (ends_sub _ _)) fun whole => .bind (.guard _ _) fun _ => ?_
    refine .bind (.lift (ends_mulDiv _ _ _ _)) fun cost =>
      .bind (tame_modCustody fun c => ?_) fun _ => ?_
    · exact .bind (ends_averagePrice _ _ _ _) fun _ _ => .bind (ends_add _ _) fun _ _ =>
        .bind (ends_add _ _) fun _ _ => avoids_ok _
    · exact .lift (ends_add _ _)
  | subscription =>
    refine .bind (.ite (.bind (.lift (ends_scaleQtyTrunc _ _ _)) fun _ => .guard _ _) (.pure _)) ?_
    refine fun _ => .bind (tame_modCustody fun c => ?_) fun _ => ?_
    · exact .bind (ends_averagePrice _ _ _ _) fun _ _ => .bind (ends_add _ _) fun _ _ => avoids_ok _
    · refine .bind (tame_modAccount (fun a => ?_)
        (keepsAccount_actCash e .subscription)) fun _ => ?_
      · exact .bind (ends_sub _ _) fun _ _ => avoids_ok _
      · exact .pure _
  | leftoversAuction =>
    refine .bind (tame_custodyAt _) fun c => .bind (.lift (ends_neg _)) fun delta => ?_
    refine .bind (tame_modCustody fun c => avoids_ok _) fun _ => ?_
    refine .bind (tame_modAccount (fun a => ?_)
      (keepsAccount_actCash e .leftoversAuction)) fun _ => ?_
    · exact .bind (ends_add _ _) fun _ _ => avoids_ok _
    · exact .pure _

theorem tame_refusedBy (actionId : UInt64) (r : OpenTable.Inserted Unit) :
    Tame (refusedBy actionId r) := by
  cases r with
  | added => exact .pure _
  | present _ => exact .fail _
  | full => exact .fail _

/-- Consuming the key of an action changes a set, not the lists. -/
theorem tame_consumeAction (actionId : UInt64) (acct : ℕ) : Tame (consumeAction actionId acct) :=
  .bind (.ask fun _ h => h.ofRows rfl rfl) fun _ => tame_refusedBy _ _

theorem tame_consumeIncome (actionId : UInt64) (acct : ℕ) : Tame (consumeIncome actionId acct) :=
  .bind (.ask fun _ h => h.ofRows rfl rfl) fun _ => tame_refusedBy _ _

/-- A corporate action has no walk at all. -/
theorem halts_applyCorporateAction (ev : EventView) : Halts (applyCorporateAction ev) := by
  refine .bind (tame_decode _ _ _) fun e => .bind (tame_account _) fun acct => ?_
  refine .bind (tame_instrument _) fun inst => .bind (tame_position _ _) fun pos => ?_
  refine .bind (.orFail _ _) fun type => .bind (.guard _ _) fun _ => ?_
  refine .bind (tame_consumeAction _ _) fun _ => .bind (tame_custodyAt _) fun c => ?_
  refine .bind (.lift (ends_custodyToday _)) fun base => .bind (tame_actOn e acct pos base type) ?_
  refine fun delta => .bind (tame_modAccount (fun a => ?_) (keepsAccount_withholdTax e)) fun _ => ?_
  · exact .bind (ends_sub _ _) fun _ _ => avoids_ok _
  · refine .bind (.ite (tame_pushException _ _) (.pure _)) fun _ => ?_
    exact ((calm_checkBuckets _).bind fun _ => calm_publicaPosicao _ _).halts

/-- An income has no walk at all. -/
theorem halts_applyDividendPaid (ev : EventView) : Halts (applyDividendPaid ev) := by
  refine .bind (tame_decode _ _ _) fun e => .bind (tame_account _) fun acct => ?_
  refine .bind (.lift (ends_sub _ _)) fun net => .bind (.guard _ _) fun _ => ?_
  refine .bind (.guard _ _) fun _ => .bind (.lift (ends_mulDiv _ _ _ _)) fun expected => ?_
  refine .bind (.ite ((tame_pushException _ _).bind fun _ => .fail _) (.pure _)) fun _ => ?_
  refine .bind (tame_consumeIncome _ _) fun _ =>
    (tame_modAccount ?_ (keepsAccount_creditIncome e)).calm.halts
  exact fun a => avoids_ite.mpr ⟨fun _ => .bind (ends_add _ _) fun _ _ => avoids_ok _, fun _ =>
    .bind (ends_sub _ _) fun _ _ => .bind (ends_add _ _) fun _ _ => avoids_ok _⟩

theorem halts_applyClosingPrice (ev : EventView) : Halts (applyClosingPrice ev) := by
  refine .bind (tame_decode _ _ _) fun e => .bind (.guard _ _) fun _ => ?_
  refine .bind (tame_instrument _) fun inst => (Calm.change fun s => avoids_map.mpr ?_).halts
  exact ends_modRow fun r => avoids_ok _

theorem halts_applyCustodyReconciled (ev : EventView) : Halts (applyCustodyReconciled ev) :=
  .bind (tame_decode _ _ _) fun _ => .bind (.ofExcept _) fun _ =>
    (Calm.change fun _ => avoids_ok _).halts

/-- The mark of the end of a day compares two checksums and raises a flag. -/
theorem halts_applyEodMarked (ev : EventView) : Halts (applyEodMarked ev) := by
  refine .bind (tame_decode _ _ _) fun e => .bind (.look fun _ => avoids_ok _) fun custody => ?_
  refine .bind (.look fun _ => avoids_ok _) fun cash => .bind (.guard _ _) fun _ => ?_
  exact (Calm.change fun _ => avoids_ok _).halts

/-- Every handler ends on linked lists, and so does the dispatch over them. -/
theorem halts_dispatch (ev : EventView) : Halts (dispatch ev) := by
  unfold dispatch
  split
  · rename_i t _
    cases t with
    | dayOpened => exact halts_applyDayOpened ev
    | tradeExecuted => exact halts_applyTradeExecuted ev
    | tradeAllocated => exact halts_applyTradeAllocated ev
    | batchNetted => exact halts_applyBatchNetted ev
    | tradeSettled => exact halts_applyTradeSettled ev
    | corporateActionApplied => exact halts_applyCorporateAction ev
    | dividendPaid => exact halts_applyDividendPaid ev
    | closingPriceSet => exact halts_applyClosingPrice ev
    | custodyReconciled => exact halts_applyCustodyReconciled ev
    | eodMarked => exact halts_applyEodMarked ev
  · exact (Tame.fail _).calm.halts

/-- **Every event ends** from a state with linked lists. -/
theorem ends_apply (h : s.Linked) (o : Option Outbox) (ev : EventView) : Ends (apply ⟨s, o⟩ ev) :=
  .bind (halts_dispatch ev ⟨s, o⟩ h) fun _ _ => avoids_ok _

/-! ### The table of trades -/

/-- What holds of the lists and of the index of trades. -/
structure PartitionState.WellListed (s : PartitionState) : Prop where
  /-- Following the links from an account comes to an end, repeats no row and visits exactly the
  trades of the account. -/
  lists : ∀ acct a, s.accounts[acct]? = some a → ∃ is, Chain (linkIn s.trades) a.firstTrade is ∧
    is.Nodup ∧ ∀ i, i ∈ is ↔ ∃ r, s.trades[i]? = some r ∧ r.account = acct
  index : ∀ id i, s.tradeIndex.find id = some i ↔ ∃ r, s.trades[i]? = some r ∧ r.tradeId = id
  ids : (s.trades.map (·.tradeId)).Nodup
  ends : ∀ o ev, apply ⟨s, o⟩ ev ≠ .error .endlessLoop

/-- Linked lists and a sound state are together what a walk asks for: each account has a list, with
each of its trades on it once. -/
theorem PartitionState.Linked.wellListed (h : s.Linked) (hs : s.Sound) : s.WellListed where
  lists acct a ha := by
    obtain ⟨is, hchain, -, hmem⟩ := h.chain ha
    refine ⟨is, hchain, hchain.nodup, fun i => (hmem i).trans ?_⟩
    rw [ownerIn, List.getElem?_map, Option.map_eq_some_iff]
  index id i := by
    rw [hs.trades.index.find, tradeKeys, List.getElem?_map, Option.map_eq_some_iff]
  ids := hs.trades.index.nodup
  ends o ev heq := ends_apply h o ev _ heq rfl

/-- **Lists and index of trades.** In a session in which no allocation is misplaced, every state is
well listed, and every event ends there. -/
theorem wellListed_of_session {arena arena₀ : Arena} {pid : UInt16} {c : PartitionCapacity}
    {s₀ s : PartitionState} (hinit : blank.init arena pid c = .ok (true, s₀, arena₀))
    {steps : List Step} (h : Session s₀ steps s)
    (hnot : ∀ x ∈ steps, ∀ e, LogRecord.event x.ev = some (.tradeAllocated e) →
      ¬ e.Misplaces x.before) : s.WellListed :=
  (h.listed (sound_init hinit) (listed_init hinit) fun x hx _ => hnot x hx).linked.wellListed
    (h.sound (sound_init hinit))

/-- The trade of `boughtOne`, allocated to another account. -/
def movedOne : TradeAllocated := ⟨1, 1, 2, 10000, 0, 20260903, 1⟩

/-- Two accounts buy, the first of them twice, and its first trade moves to the other. -/
def threeTrades : List Event :=
  [.closingPriceSet quoted, .dayOpened firstDay, .tradeExecuted boughtOne,
    .tradeExecuted boughtOther, .tradeExecuted { boughtOne with tradeId := 3 },
    .tradeAllocated movedOne]

/-- The trade that moves is cut out of the end of one list and put in front of the other. -/
theorem wellListed_of_session_moved :
    ∃ s₀ arena₀ s steps, blank.init ⟨2 ^ 16, 0, false, false⟩ 1 ⟨4, 4, 4, 4, 2, 2, 2, 2, 60⟩ =
        .ok (true, s₀, arena₀) ∧ Session s₀ steps s ∧ (∀ x ∈ steps, x.st = .kOk) ∧
      s.accounts.map (·.firstTrade) = [some 2, some 0] ∧
      s.trades.map (fun r => (r.account, r.next)) = [(1, some 1), (1, none), (0, none)] ∧
      s.WellListed := by
  obtain ⟨s₀, arena₀, s, steps, hinit, h, hrun⟩ := @exists_of_runPasses
    ⟨4, 4, 4, 4, 2, 2, 2, 2, 60⟩ threeTrades
    (fun steps s => steps.all (fun x => decide (x.st = .kOk) &&
        (x.before.tradeOf 1).all fun r : TradeRow =>
          decide (x.before.accountKeys[r.account]? = some 1)) &&
      steps.all (fun x => decide (x.ev ∈ (feed threeTrades).map Prod.fst)) &&
      decide (s.accounts.map (·.firstTrade) = [some 2, some 0] ∧
        s.trades.map (fun r => (r.account, r.next)) = [(1, some 1), (1, none), (0, none)]))
    (by decide +kernel)
  simp only [Bool.and_eq_true, List.all_eq_true, decide_eq_true_eq, Option.all_eq_true] at hrun
  obtain ⟨⟨hsteps, hfeed⟩, hfirst, hrows⟩ := hrun
  refine ⟨s₀, arena₀, s, steps, hinit, h, fun x hx => (hsteps x hx).1, hfirst, hrows,
    wellListed_of_session hinit h fun x hx e he => ?_⟩
  obtain ⟨y, hy, heq⟩ := event_of_mem_feed (by simp [threeTrades, Event.Fits]) (hfeed x hx)
  obtain rfl := Option.some.inj (heq.symm.trans he)
  obtain rfl : e = movedOne := by simpa [threeTrades] using hy
  rintro ⟨-, r, k, c, hr, hother, -⟩
  exact hother ((hsteps x hx).2 r hr)

/-- The trade of `boughtOne`, taken from the other account to the one that holds it. -/
def misplacedOne : TradeAllocated := ⟨1, 2, 1, 10000, 0, 20260903, 1⟩

/-- A misplaced allocation makes a cycle, and the next netting of the account does not end. -/
theorem not_forall_wellListed :
    ¬ ∀ (arena arena₀ : Arena) (pid : UInt16) (c : PartitionCapacity) (s₀ s : PartitionState)
        (steps : List Step), blank.init arena pid c = .ok (true, s₀, arena₀) →
      Session s₀ steps s → s.WellListed := by
  intro hall
  have hrun : ∃ s₀ arena₀, blank.init ⟨2 ^ 16, 0, false, false⟩ 1
      ⟨4, 4, 4, 4, 2, 2, 2, 2, 60⟩ = .ok (true, s₀, arena₀) ∧ ∃ s, applyAll s₀
        (feed [.closingPriceSet quoted, .dayOpened firstDay, .tradeExecuted boughtOne,
          .tradeExecuted boughtOther, .tradeAllocated misplacedOne]) =
            .ok ([.kOk, .kOk, .kOk, .kOk, .kOk], s) ∧
      apply ⟨s, none⟩ (Event.record 6 (.batchNetted ⟨1, 0, 20260903, 0⟩)) = .error .endlessLoop :=
    ⟨_, _, rfl, _, rfl, rfl⟩
  obtain ⟨s₀, arena₀, hinit, s, hrun, hloop⟩ := hrun
  obtain ⟨steps, hsession, -⟩ := session_of_applyAll hrun
  exact (hall _ _ _ _ _ _ _ hinit hsession).ends _ _ hloop

end MotorRv
