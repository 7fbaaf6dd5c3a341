import MotorRv.Core.Session
import MotorRv.Core.Records
import MotorRv.Core.EffectsOf

/-!
# Rotation of the settlement window

When a day opens, each slot of the old window goes to the slot of the new one with the same date,
and to overdue where there is none. The handler leaves rows and slots with nothing in them alone;
`rewriteCustody` and `rewriteCash` are the rotation without these shortcuts.

A slot is moved under its date (`SlotMoved`): to the slot of the new window with the same date,
added to what is there, or else to overdue. Three such moves from empty slots make a rotated side
(`SideRotated`), in which the sum under each date is what it was and what expired is overdue. The
sums per date are the right notion because a window may have a date twice, as it does before the
first day.

That the shortcuts of the code change nothing is a matter of adding zeros, which cannot overflow
(`rotateCustody_eq`, `rotateCash_eq`); the rest of the proof is about the version without them.
-/

namespace MotorRv

open Lib PartitionState Apply

/-! ### One slot -/

/-- What the slots of a window with a date hold. -/
def datedSum (w : SettlementWindow) (f : Slots Raw) (d : DateYmd) : ℤ :=
  ∑ k with w k = d, (f k).toInt

/-- What the slots of the old window whose date is not in the new one hold. -/
def expiredSum (old new : SettlementWindow) (f : Slots Raw) : ℤ :=
  ∑ k with ∀ j, new j ≠ old k, (f k).toInt

/-- Replacing a slot moves the sum of its date by the difference. -/
theorem datedSum_setSlot (w : SettlementWindow) (f : Slots Raw) (j : Fin 3) (x : Raw)
    (d : DateYmd) :
    datedSum w (setSlot f j x) d = datedSum w f d + if w j =
      d then x.toInt - (f j).toInt else 0 := by
  unfold datedSum
  rw [Finset.sum_filter, Finset.sum_filter, Fin.sum_univ_three, Fin.sum_univ_three]
  fin_cases j
  all_goals
    simp [setSlot, Function.update]
    split_ifs <;> omega

/-- Slot `k`, holding `x`, has been moved: to overdue when its date has expired, and else to the
slot of its date. -/
structure SlotMoved (old new : SettlementWindow) (k : Fin 3) (x : ℤ) (o o' : Raw)
    (f f' : Slots Raw) : Prop where
  overdue : o'.toInt = o.toInt + if ∀ j, new j ≠ old k then x else 0
  dated : ∀ d, (∃ j, new j = d) →
    datedSum new f' d = datedSum new f d + if old k = d then x else 0

namespace SlotMoved

variable {old new : SettlementWindow} {k : Fin 3} {x : Raw} {o o' : Raw} {f : Slots Raw}

/-- A slot whose date is not in the new window goes to overdue. -/
theorem expired (hk : new.slotOf (old k) = none) (h : Fixed.add o x = .ok o') :
    SlotMoved old new k x.toInt o o' f f := by
  have hne := SettlementWindow.slotOf_eq_none.mp hk
  refine ⟨?_, fun d hd => ?_⟩
  · rw [if_pos hne, Fixed.add_eq_ok h]
  · obtain ⟨j, rfl⟩ := hd
    rw [if_neg fun heq => hne j heq.symm, add_zero]

/-- A slot whose date is in the new window goes to its place there. -/
theorem kept {j : Fin 3} {b : Raw} (hk : new.slotOf (old k) = some j)
    (h : Fixed.add (f j) x = .ok b) : SlotMoved old new k x.toInt o o f (setSlot f j b) := by
  have hj := SettlementWindow.slotOf_eq_some hk
  refine ⟨?_, fun d _ => ?_⟩
  · rw [if_neg fun hne => hne j hj, add_zero]
  · rw [datedSum_setSlot, hj, Fixed.add_eq_ok h, add_sub_cancel_left]

end SlotMoved

/-- One side of a row after a rotation: what has expired is overdue, and the rest stands under its
date. -/
structure SideRotated (old new : SettlementWindow) (o o' : Raw) (f f' : Slots Raw) : Prop where
  overdue : o'.toInt = o.toInt + expiredSum old new f
  dated : ∀ d, (∃ j, new j = d) → datedSum new f' d = datedSum old f d

/-- Three slots moved from empty slots. -/
theorem SideRotated.ofSlots {old new : SettlementWindow} {o o₀ o₁ o₂ : Raw} {f f₀ f₁ f₂ : Slots Raw}
    (h₀ : SlotMoved old new 0 (f 0).toInt o o₀ (fun _ => 0) f₀)
    (h₁ : SlotMoved old new 1 (f 1).toInt o₀ o₁ f₀ f₁)
    (h₂ : SlotMoved old new 2 (f 2).toInt o₁ o₂ f₁ f₂) : SideRotated old new o o₂ f f₂ where
  overdue := by
    rw [h₂.overdue, h₁.overdue, h₀.overdue, expiredSum, Finset.sum_filter, Fin.sum_univ_three]
    ring
  dated d hd := by
    have hzero : datedSum new (fun _ => 0) d = 0 := by simp [datedSum]
    rw [h₂.dated d hd, h₁.dated d hd, h₀.dated d hd, hzero, datedSum, Finset.sum_filter,
      Fin.sum_univ_three]
    ring

/-! ### Without the shortcuts -/

/-- Move slot `k` of a position, whatever it holds. -/
def moveCustodySlot (old new : SettlementWindow) (c acc : CustodyRow) (k : Fin 3) :
    Exec CustodyRow :=
  match new.slotOf (old k) with
  | none => do
    let b ← Fixed.add acc.overdueBuy (c.pendingBuy k)
    let v ← Fixed.add acc.overdueSell (c.pendingSell k)
    .ok { acc with overdueBuy := b, overdueSell := v }
  | some j => do
    let b ← Fixed.add (acc.pendingBuy j) (c.pendingBuy k)
    let v ← Fixed.add (acc.pendingSell j) (c.pendingSell k)
    .ok { acc with
      pendingBuy := setSlot acc.pendingBuy j b
      pendingSell := setSlot acc.pendingSell j v }

/-- The rotation of a position that rewrites every row. -/
def rewriteCustody (old new : SettlementWindow) (c : CustodyRow) : Exec CustodyRow := do
  let acc ← moveCustodySlot old new c
    { c with pendingBuy := fun _ => 0, pendingSell := fun _ => 0 } 0
  let acc ← moveCustodySlot old new c acc 1
  moveCustodySlot old new c acc 2

def moveCashSlot (old new : SettlementWindow) (a acc : AccountRow) (k : Fin 3) :
    Exec AccountRow :=
  match new.slotOf (old k) with
  | none => do
    let p ← Fixed.add acc.overdue (a.pending k)
    .ok { acc with overdue := p }
  | some j => do
    let p ← Fixed.add (acc.pending j) (a.pending k)
    .ok { acc with pending := setSlot acc.pending j p }

/-- The rotation of an account that rewrites every row. -/
def rewriteCash (old new : SettlementWindow) (a : AccountRow) : Exec AccountRow := do
  let acc ← moveCashSlot old new a { a with pending := fun _ => 0 } 0
  let acc ← moveCashSlot old new a acc 1
  moveCashSlot old new a acc 2

theorem add_zero_eq (x : Raw) : Fixed.add x 0 = .ok x := by
  have hlow := x.le_toInt
  have hhigh := x.toInt_lt
  have hfit : fitsRaw (x.toInt + (0 : Raw).toInt) = true := by
    rw [Int64.toInt_zero, add_zero]
    exact decide_eq_true ⟨hlow, hhigh⟩
  rw [Fixed.add, checkedRaw, if_pos hfit, Int64.toInt_zero, add_zero, Int64.ofInt_toInt]

theorem setSlot_self (f : Slots Raw) (j : Fin 3) : setSlot f j (f j) = f :=
  Function.update_eq_self j f

section Shortcuts

variable (old new : SettlementWindow)

/-- Leaving out an empty slot changes nothing. -/
theorem rotateCustodySlot_eq (c acc : CustodyRow) (k : Fin 3) :
    rotateCustodySlot old new c acc k = moveCustodySlot old new c acc k := by
  unfold rotateCustodySlot moveCustodySlot
  split_ifs with hzero
  · rw [hzero.1, hzero.2]
    cases new.slotOf (old k) with
    | none =>
      simp only [add_zero_eq]
      rfl
    | some j =>
      simp only [add_zero_eq]
      change _ = Except.ok { acc with
        pendingBuy := setSlot acc.pendingBuy j (acc.pendingBuy j)
        pendingSell := setSlot acc.pendingSell j (acc.pendingSell j) }
      rw [setSlot_self, setSlot_self]
  · rfl

/-- The rotation skips a position with empty slots, which rewriting would leave as it is. -/
theorem rotateCustody_eq (c : CustodyRow) : rotateCustody old new c = rewriteCustody old new c := by
  unfold rotateCustody rewriteCustody
  simp only [rotateCustodySlot_eq]
  split_ifs with hzero
  · -- every slot is empty, and the row is what it was
    have hb : c.pendingBuy = fun _ => 0 := funext fun k => (hzero k).1
    have hv : c.pendingSell = fun _ => 0 := funext fun k => (hzero k).2
    have hslot : ∀ k, moveCustodySlot old new c c k = .ok c := by
      intro k
      rw [← rotateCustodySlot_eq, rotateCustodySlot, if_pos (hzero k)]
    have hrow : ({ c with pendingBuy := fun _ => 0, pendingSell := fun _ => 0 } : CustodyRow) =
      c := by
      cases c
      cases hb
      cases hv
      rfl
    rw [hrow, hslot]
    change _ = moveCustodySlot old new c c 1 >>= _
    rw [hslot]
    exact (hslot 2).symm
  · rfl

/-- A slot of money that is empty may be skipped. -/
theorem rotateCashSlot_eq (a acc : AccountRow) (k : Fin 3) :
    rotateCashSlot old new a acc k = moveCashSlot old new a acc k := by
  unfold rotateCashSlot moveCashSlot
  split_ifs with hzero
  · rw [hzero]
    cases new.slotOf (old k) with
    | none =>
      simp only [add_zero_eq]
      rfl
    | some j =>
      simp only [add_zero_eq]
      change _ = Except.ok { acc with pending := setSlot acc.pending j (acc.pending j) }
      rw [setSlot_self]
  · rfl

/-- The rotation skips an account with empty slots, which rewriting would leave as it is. -/
theorem rotateCash_eq (a : AccountRow) : rotateCash old new a = rewriteCash old new a := by
  unfold rotateCash rewriteCash
  simp only [rotateCashSlot_eq]
  split_ifs with hzero
  · have hp : a.pending = fun _ => 0 := funext hzero
    have hslot : ∀ k, moveCashSlot old new a a k = .ok a := by
      intro k
      rw [← rotateCashSlot_eq, rotateCashSlot, if_pos (hzero k)]
    have hrow : ({ a with pending := fun _ => 0 } : AccountRow) = a := by
      rw [← hp]
    rw [hrow, hslot]
    change _ = moveCashSlot old new a a 1 >>= _
    rw [hslot]
    exact (hslot 2).symm
  · rfl

end Shortcuts

/-! ### One row -/

/-- A position after a rotation. -/
structure CustodyRow.Rotated (old new : SettlementWindow) (c c' : CustodyRow) : Prop where
  buy : SideRotated old new c.overdueBuy c'.overdueBuy c.pendingBuy c'.pendingBuy
  sell : SideRotated old new c.overdueSell c'.overdueSell c.pendingSell c'.pendingSell
  rest : c' = { c with
    overdueBuy := c'.overdueBuy
    overdueSell := c'.overdueSell
    pendingBuy := c'.pendingBuy
    pendingSell := c'.pendingSell }

/-- An account after a rotation; the head of its list is no part of it. -/
structure AccountRow.Rotated (old new : SettlementWindow) (a a' : AccountRow) : Prop where
  pending : SideRotated old new a.overdue a'.overdue a.pending a'.pending
  rest : a'.unlinked = { a.unlinked with overdue := a'.overdue, pending := a'.pending }

variable {old new : SettlementWindow}

/-- A step of the rotation moves one slot of each side. -/
theorem moveCustodySlot_eq_ok {c acc acc' : CustodyRow} {k : Fin 3}
    (h : moveCustodySlot old new c acc k = .ok acc') :
    SlotMoved old new k (c.pendingBuy k).toInt acc.overdueBuy acc'.overdueBuy
        acc.pendingBuy acc'.pendingBuy ∧
      SlotMoved old new k (c.pendingSell k).toInt acc.overdueSell acc'.overdueSell
        acc.pendingSell acc'.pendingSell ∧
      acc' = { acc with
        overdueBuy := acc'.overdueBuy
        overdueSell := acc'.overdueSell
        pendingBuy := acc'.pendingBuy
        pendingSell := acc'.pendingSell } := by
  unfold moveCustodySlot at h
  split at h
  · rename_i hk
    simp only [bind, except_bind_eq_ok] at h
    obtain ⟨b, hb, v, hv, h⟩ := h
    obtain rfl := Except.ok.inj h
    exact ⟨.expired hk hb, .expired hk hv, rfl⟩
  · rename_i j hk
    simp only [bind, except_bind_eq_ok] at h
    obtain ⟨b, hb, v, hv, h⟩ := h
    obtain rfl := Except.ok.inj h
    exact ⟨.kept hk hb, .kept hk hv, rfl⟩

/-- After three steps each amount is with its date or overdue. -/
theorem rotated_of_rewriteCustody {c c' : CustodyRow} (h : rewriteCustody old new c = .ok c') :
    c.Rotated old new c' := by
  simp only [rewriteCustody, bind, except_bind_eq_ok] at h
  obtain ⟨c₀, h₀, c₁, h₁, h₂⟩ := h
  obtain ⟨b₀, v₀, r₀⟩ := moveCustodySlot_eq_ok h₀
  obtain ⟨b₁, v₁, r₁⟩ := moveCustodySlot_eq_ok h₁
  obtain ⟨b₂, v₂, r₂⟩ := moveCustodySlot_eq_ok h₂
  refine ⟨.ofSlots b₀ b₁ b₂, .ofSlots v₀ v₁ v₂, ?_⟩
  rw [r₂, r₁, r₀]

/-- A step of the rotation moves one slot of money. -/
theorem moveCashSlot_eq_ok {a acc acc' : AccountRow} {k : Fin 3}
    (h : moveCashSlot old new a acc k = .ok acc') :
    SlotMoved old new k (a.pending k).toInt acc.overdue acc'.overdue acc.pending acc'.pending ∧
      acc' = { acc with overdue := acc'.overdue, pending := acc'.pending } := by
  unfold moveCashSlot at h
  split at h
  · rename_i hk
    simp only [bind, except_bind_eq_ok] at h
    obtain ⟨p, hp, h⟩ := h
    obtain rfl := Except.ok.inj h
    exact ⟨.expired hk hp, rfl⟩
  · rename_i j hk
    simp only [bind, except_bind_eq_ok] at h
    obtain ⟨p, hp, h⟩ := h
    obtain rfl := Except.ok.inj h
    exact ⟨.kept hk hp, rfl⟩

/-- After three steps all the money is with its date or overdue. -/
theorem rotated_of_rewriteCash {a a₁ a' : AccountRow} (h : rewriteCash old new a = .ok a₁)
    (hlink : a'.unlinked = a₁.unlinked) : a.Rotated old new a' := by
  simp only [rewriteCash, bind, except_bind_eq_ok] at h
  obtain ⟨a₂, h₀, a₃, h₁, h₂⟩ := h
  obtain ⟨p₀, r₀⟩ := moveCashSlot_eq_ok h₀
  obtain ⟨p₁, r₁⟩ := moveCashSlot_eq_ok h₁
  obtain ⟨p₂, r₂⟩ := moveCashSlot_eq_ok h₂
  have hoverdue : a'.overdue = a₁.overdue := congrArg (·.overdue) hlink
  have hpending : a'.pending = a₁.pending := congrArg (·.pending) hlink
  refine ⟨?_, ?_⟩
  · rw [hoverdue, hpending]
    exact .ofSlots p₀ p₁ p₂
  · rw [hlink, hoverdue, hpending, r₂, r₁, r₀]
    rfl

/-! ### The whole state -/

/-- What an accepted event that opens a day does to the ledgers. -/
structure DayRotated (e : DayOpened) (s s' : PartitionState) : Prop where
  window : s'.window = newWindow e
  custody : List.Forall₂ (CustodyRow.Rotated s.window s'.window) s.custody s'.custody
  accounts : List.Forall₂ (AccountRow.Rotated s.window s'.window) s.accounts s'.accounts
  rewritten : List.Forall₂ (fun c c' => rewriteCustody s.window s'.window c = .ok c')
    s.custody s'.custody
  rewrittenCash : List.Forall₂ (fun a a' => ∃ a₁, rewriteCash s.window s'.window a = .ok a₁ ∧
    a'.unlinked = a₁.unlinked) s.accounts s'.accounts

/-- Opening a day rotates every position and every account. -/
theorem Opened.dayRotated {e : DayOpened} {s s' : PartitionState} (h : Opened e s s') :
    DayRotated e s s' := by
  have hcustody : List.Forall₂ (fun c c' => rewriteCustody s.window s'.window c = .ok c')
      s.custody s'.custody := by
    rw [h.window]
    exact h.custody.imp fun c c' hc => by rwa [rotateCustody_eq] at hc
  have haccounts : List.Forall₂ (fun a a' => ∃ a₁, rewriteCash s.window s'.window a = .ok a₁ ∧
      a'.unlinked = a₁.unlinked) s.accounts s'.accounts := by
    rw [h.window]
    exact h.accounts.imp fun a a' ⟨a₁, ha, hlink⟩ => ⟨a₁, by rwa [rotateCash_eq] at ha, hlink⟩
  refine ⟨h.window, ?_, ?_, hcustody, haccounts⟩
  · exact hcustody.imp fun c c' hc => rotated_of_rewriteCustody hc
  · exact haccounts.imp fun a a' ⟨a₁, ha, hlink⟩ => rotated_of_rewriteCash ha hlink

/-- The two ways in which the handler ends. -/
theorem from_applyDayOpened (ev : EventView) (e : Engine) : Proc.From e (applyDayOpened ev)
    (fun _ e' => ∃ s', openDay (DayOpened.ofBytes ev.payload) e.s = .ok s' ∧
      e' = { e with s := s' })
    (fun st e' => st.isOk = false ∧ e' = e) := by
  refine from_decode ⟨rfl, rfl⟩ fun _ => ?_
  refine Proc.From.guard (fun _ => ⟨rfl, rfl⟩) fun _ => ?_
  refine from_look fun today htoday => ?_
  refine Proc.From.guard (fun _ => ⟨rfl, rfl⟩) fun _ => ?_
  exact from_lastChange fun s' hs' => ⟨s', hs', rfl⟩

/-- **Day rotation.** An accepted event that opens a day moves every pending amount to the slot of
its date, or to overdue, and changes no other bucket; the shortcuts for what is empty make no
difference. A rejected one changes no row of the ledgers. -/
theorem rotation_of_dayOpened {s : PartitionState} {o : Option Outbox} {ev : EventView}
    {st : Status}
    {e' : Engine} (ht : Tmpl.ofId ev.tmpl.toNat = some .dayOpened)
    (h : apply ⟨s, o⟩ ev = .ok (st, e')) :
    (st.isOk = true → DayRotated (DayOpened.ofBytes ev.payload) s e'.s) ∧
      (st.isOk = false → e'.s.custody = s.custody ∧ e'.s.accounts = s.accounts) := by
  simp only [apply, bind, except_bind_eq_ok] at h
  obtain ⟨⟨r, e₁⟩, hd, h⟩ := h
  obtain ⟨rfl, rfl⟩ := Prod.mk.inj (Except.ok.inj h)
  unfold dispatch at hd
  rw [ht] at hd
  have hfrom := from_applyDayOpened ev ⟨s, o⟩
  cases r with
  | error st =>
    obtain ⟨hno, rfl⟩ := hfrom.error hd
    refine ⟨fun hok => absurd (hno.symm.trans hok) (by decide), fun _ => ⟨rfl, rfl⟩⟩
  | ok u =>
    obtain ⟨s', hopen, rfl⟩ := hfrom.ok hd
    refine ⟨fun _ => ?_, fun hno => absurd (show true = false from hno) (by decide)⟩
    have hday := (opened_of_openDay hopen).dayRotated
    exact { hday with }

/-- The day after `firstDay`. -/
def secondDay : DayOpened := ⟨20260902, 20260901, 20260903, 20260904⟩

/-- A purchase is pending when the second day opens. -/
theorem rotation_of_dayOpened_second :
    ∃ s₀ arena₀ s e', blank.init ⟨2 ^ 16, 0, false, false⟩ 1 ⟨2, 2, 2, 2, 2, 2, 2, 2, 60⟩ =
        .ok (true, s₀, arena₀) ∧
      applyAll s₀ (feed [.closingPriceSet quoted, .dayOpened firstDay, .tradeExecuted boughtOne]) =
        .ok ([.kOk, .kOk, .kOk], s) ∧
      apply ⟨s, none⟩ ((Event.dayOpened secondDay).record 4) = .ok (.kOk, e') ∧
      DayRotated (DayOpened.ofBytes ((Event.dayOpened secondDay).record 4).payload) s e'.s := by
  have hrun : ∃ s₀ arena₀ s e', blank.init ⟨2 ^ 16, 0, false, false⟩ 1
      ⟨2, 2, 2, 2, 2, 2, 2, 2, 60⟩ = .ok (true, s₀, arena₀) ∧
      applyAll s₀ (feed [.closingPriceSet quoted, .dayOpened firstDay, .tradeExecuted boughtOne]) =
        .ok ([.kOk, .kOk, .kOk], s) ∧
      apply ⟨s, none⟩ ((Event.dayOpened secondDay).record 4) = .ok (.kOk, e') :=
    ⟨_, _, _, _, rfl, rfl, rfl⟩
  obtain ⟨s₀, arena₀, s, e', hinit, hfeed, happly⟩ := hrun
  exact ⟨s₀, arena₀, s, e', hinit, hfeed, happly, (rotation_of_dayOpened rfl happly).1 rfl⟩

end MotorRv
