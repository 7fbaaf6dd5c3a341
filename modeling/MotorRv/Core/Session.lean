import MotorRv.Core.Replay

/-!
# Interrupted runs

A session applies events and, anywhere between two of them, saves the state and goes on from what
loading the image gives. Loading always gives a state that agrees with the saved one, so a session
is sound throughout.

`Step` records an event with its answer and the states before and after it, so that a statement can
speak of every moment of a session. An event of a session may have any status but an abort, and the
outbox it finds is arbitrary, as between two events the reader may have released anything.

`Reachable` is the shorthand for a state that some session reaches from some initialisation. An
invariant of sessions has two obligations: that `apply` keeps it, and that it passes to an agreeing
state, for the reloads.
-/

namespace MotorRv

open Lib PartitionState

/-! ### Loading what was saved -/

theorem TableSound.of_same {cap : UInt32} {keys : List UInt64} {a b : DenseIndex}
    (h : TableSound cap keys a) (hsame : a.Same b) : TableSound cap keys b where
  index :=
    { wf := hsame.equiv.right
      find := fun k i => by rw [← hsame.find]; exact h.index.find k i
      size := hsame.equiv.size ▸ h.index.size
      room := hsame.equiv.slots ▸ hsame.room }
  slots := hsame.equiv.slots ▸ h.slots
  le := h.le

theorem PairIndex.Sound.of_equiv {n : ℕ} {a b : PairIndex} (h : PairIndex.Sound n a)
    (heq : OpenTable.Equiv PairIndex.home a b) : PairIndex.Sound n b where
  wf := heq.right
  slots := heq.slots ▸ h.slots
  size := by
    rw [← heq.size, ← heq.slots]
    exact h.size
  rows e he := by
    refine h.rows e ?_
    rw [← OpenTable.find_eq_some heq.left, heq.find, OpenTable.find_eq_some heq.right]
    exact he

theorem TwoGenSet.Sound.of_equiv {n : ℕ} {a b : TwoGenSet} (h : a.Sound n) (heq : a.Equiv b) :
    b.Sound n :=
  ⟨h.gen0.of_equiv heq.gen0, h.gen1.of_equiv heq.gen1⟩

theorem Agree.sound {s t : PartitionState} (h : Agree s t) (hs : s.Sound) : t.Sound := by
  obtain ⟨c, rfl, hsame⟩ := h
  exact
    { tables := hs.tables
      accounts := hs.accounts.of_same hsame.accountIndex
      positions := hs.positions.of_same hsame.positionIndex
      instruments := hs.instruments.of_same hsame.instrumentIndex
      trades := hs.trades.of_same hsame.tradeIndex
      slotColumns := hs.slotColumns
      exceptions := hsame.exceptionRoom.2
      custodyRows := hs.custodyRows
      accountRows := hs.accountRows
      tradeRows := hs.tradeRows
      actions := hs.actions.of_equiv hsame.appliedActions
      income := hs.income.of_equiv hsame.appliedIncome }

/-- A load that succeeds found room in the arena. -/
theorem arenaFits_of_load {s target t : PartitionState} {arena arena' : Arena} (hs : s.Sound)
    (h : loadStateImage target arena (imageOf s) = .ok (.kOk, t, arena')) :
    ArenaFits arena s.cap := by
  rw [loadStateImage, loadHeader_imageOf hs] at h
  simp only [bind, except_bind_eq_ok] at h
  obtain ⟨⟨r, t', arena₁⟩, hbody, h⟩ := h
  have hinit : ∀ {r' : Except Status PUnit} {sa : PartitionState × Arena},
      Load.loadInit (headerOf s) (target, arena) = .ok (r', sa) →
      ArenaFits arena s.cap ∨ r' = .error (.fail .arenaExhausted) := by
    intro r' sa hinit
    simp only [Load.loadInit, bind, except_bind_eq_ok] at hinit
    obtain ⟨⟨ok, s₁, a₁⟩, hok, hinit⟩ := hinit
    cases ok with
    | true => exact .inl (arenaFits_of_init hok)
    | false => exact .inr (Prod.mk.inj (Except.ok.inj hinit)).1.symm
  rw [Load.loadBody] at hbody
  obtain ⟨_, _, hok, -⟩ | ⟨st, herr, rfl⟩ := Proc.bind_eq_ok.mp hbody
  · exact (hinit hok).resolve_right (by simp)
  · refine (hinit herr).resolve_right fun hst => ?_
    obtain rfl := Except.error.inj hst
    obtain ⟨hst, -⟩ := Prod.mk.inj (Except.ok.inj h)
    cases hst

theorem agree_of_load {s target t : PartitionState} {room : ℕ} {image : Bytes}
    {arena arena' : Arena} (hs : s.Sound) (hsave : saveStateImage s room = .ok image)
    (hload : loadStateImage target arena image = .ok (.kOk, t, arena')) : Agree s t := by
  have himage : image = imageOf s := by
    unfold saveStateImage at hsave
    split_ifs at hsave
    exact (Except.ok.inj hsave).symm
  subst himage
  obtain ⟨t', arena'', hload', hag⟩ :=
    loadStateImage_imageOf hs target (arenaFits_of_load hs hload)
  rw [hload] at hload'
  obtain ⟨rfl, -⟩ := Prod.mk.inj (Prod.mk.inj (Except.ok.inj hload')).2
  exact hag

/-! ### Sessions -/

/-- An event of a session, with its answer and the states around it. -/
structure Step where
  before : PartitionState
  ev : EventView
  st : Status
  after : PartitionState

/-- The events applied since `s₀`, in order, and the state reached. -/
inductive Session (s₀ : PartitionState) : List Step → PartitionState → Prop
  | start : Session s₀ [] s₀
  | event {steps s o ev st e} (h : Session s₀ steps s) (happ : apply ⟨s, o⟩ ev = .ok (st, e)) :
    Session s₀ (steps ++ [⟨s, ev, st, e.s⟩]) e.s
  | reload {steps s room image target arena arena' t} (h : Session s₀ steps s)
      (hsave : saveStateImage s room = .ok image)
      (hload : loadStateImage target arena image = .ok (.kOk, t, arena')) : Session s₀ steps t

theorem Session.sound {s₀ s : PartitionState} {steps : List Step} (h : Session s₀ steps s)
    (hs₀ : s₀.Sound) : s.Sound := by
  induction h with
  | start => exact hs₀
  | event _ happ ih => exact sound_apply ih happ
  | reload _ hsave hload ih => exact (agree_of_load ih hsave hload).sound ih

/-- Each event was applied to the sound state before it. -/
theorem Session.applied {s₀ s : PartitionState} {steps : List Step} (h : Session s₀ steps s)
    (hs₀ : s₀.Sound) {x : Step} (hx : x ∈ steps) : x.before.Sound ∧
      ∃ o e, apply ⟨x.before, o⟩ x.ev = .ok (x.st, e) ∧ x.after = e.s := by
  induction h with
  | start => cases hx
  | @event steps s o ev st e h happ ih =>
    obtain hx | hx := List.mem_append.mp hx
    · exact ih hx
    · obtain rfl := List.mem_singleton.mp hx
      exact ⟨h.sound hs₀, o, e, happ, rfl⟩
  | reload _ _ _ ih => exact ih hx

theorem Session.append {s₀ : PartitionState} {evs : List (EventView × Option Outbox)} :
    ∀ {steps : List Step} {s s' : PartitionState} {sts : List Status}, Session s₀ steps s →
      applyAll s evs = .ok (sts, s') → ∃ more, Session s₀ (steps ++ more) s' ∧
        more.map Step.ev = evs.map Prod.fst ∧ more.map Step.st = sts := by
  induction evs with
  | nil =>
    intro steps s s' sts h hrun
    obtain ⟨rfl, rfl⟩ := Prod.mk.inj (Except.ok.inj hrun)
    exact ⟨[], by rwa [List.append_nil], rfl, rfl⟩
  | cons x evs ih =>
    intro steps s s' sts h hrun
    obtain ⟨st, e, sts', h1, h2, rfl⟩ := applyAll_cons.mp hrun
    obtain ⟨more, hmore, hev, hst⟩ := ih (h.event h1) h2
    refine ⟨⟨s, x.1, st, e.s⟩ :: more,
      ?_, by rw [List.map_cons, hev]; rfl, by rw [List.map_cons, hst]⟩
    rwa [List.append_assoc] at hmore

/-- A run without interruptions is a session. -/
theorem session_of_applyAll {s₀ s : PartitionState} {evs : List (EventView × Option Outbox)}
    {sts : List Status} (h : applyAll s₀ evs = .ok (sts, s)) :
    ∃ steps, Session s₀ steps s ∧ steps.map Step.ev = evs.map Prod.fst ∧
      steps.map Step.st = sts := by
  simpa using Session.append .start h

/-- A state that some session reaches from an initialisation. -/
def Reachable (s : PartitionState) : Prop :=
  ∃ arena pid c s₀ arena₀ steps, blank.init arena pid c = .ok (true, s₀, arena₀) ∧
    Session s₀ steps s

theorem Reachable.sound {s : PartitionState} (h : Reachable s) : s.Sound := by
  obtain ⟨arena, pid, c, s₀, arena₀, steps, hinit, hsession⟩ := h
  exact hsession.sound (sound_init hinit)

/-- What a run reaches from an initialisation. -/
theorem Reachable.of_run {arena arena₀ : Arena} {pid : UInt16} {c : PartitionCapacity}
    {s₀ s : PartitionState} (hinit : blank.init arena pid c = .ok (true, s₀, arena₀))
    {evs : List (EventView × Option Outbox)} {sts : List Status}
    (hrun : applyAll s₀ evs = .ok (sts, s)) : Reachable s := by
  obtain ⟨steps, hsession, -, -⟩ := session_of_applyAll hrun
  exact ⟨arena, pid, c, s₀, arena₀, steps, hinit, hsession⟩

end MotorRv
