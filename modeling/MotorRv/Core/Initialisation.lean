import MotorRv.Core.PartitionState
import MotorRv.Lib.Proc

/-!
# Initialisation

An `init` that is granted everything gives `initialised`. One that is cut short has replaced the
capacities asked for and the tables before the one that was refused; the others compare their counts
with the capacities they had.

`runInit_of_granted` and `init_of_not_arenaFits` are the two sides of one question: with enough
arena the steps all succeed and the state is the initialised one, and with less the call is refused,
or does not return at all when an index is asked for with more slots than can be counted. A load of
an image starts with an `init`, so these lemmas are where the room of a load comes from; what a
refused load leaves behind is needed because recovery goes on with the same state and arena.
-/

namespace MotorRv

open Lib

/-- The arena grants everything an `init` with the capacities asks for. -/
def ArenaFits (arena : Arena) (c : PartitionCapacity) : Prop :=
  match PartitionState.indexSlots c with
  | none => False
  | some slots =>
    (arena.allocBlocks (PartitionState.initBlocks c slots)).1 = true ∧
      (arena.allocBlocks (PartitionState.initBlocks c slots)).2.overflowed = false

instance (arena : Arena) (c : PartitionCapacity) : Decidable (ArenaFits arena c) :=
  match h : PartitionState.indexSlots c with
  | none => .isFalse (by simp [ArenaFits, h])
  | some slots =>
    decidable_of_iff ((arena.allocBlocks (PartitionState.initBlocks c slots)).1 = true ∧
      (arena.allocBlocks (PartitionState.initBlocks c slots)).2.overflowed = false)
      (by simp [ArenaFits, h])

theorem exists_slots {arena : Arena} {c : PartitionCapacity} (h : ArenaFits arena c) :
    ∃ slots, PartitionState.indexSlots c = some slots ∧
      (arena.allocBlocks (PartitionState.initBlocks c slots)).1 = true ∧
      (arena.allocBlocks (PartitionState.initBlocks c slots)).2.overflowed = false := by
  unfold ArenaFits at h
  split at h
  · exact h.elim
  · rename_i slots hslots
    exact ⟨slots, hslots, h⟩

namespace PartitionState

variable {s s' : PartitionState} {arena arena' : Arena} {pid : UInt16} {c : PartitionCapacity}

theorem indexSlots_eq_some {na np ni nt ng : ℕ} :
    indexSlots c = some (na, np, ni, nt, ng) ↔
      slotCount c.accounts.toNat = some na ∧ slotCount c.positions.toNat = some np ∧
      slotCount c.instruments.toNat = some ni ∧ slotCount c.trades.toNat = some nt ∧
      slotCount c.corporateActionsPerGen.toNat = some ng := by
  simp only [indexSlots, Option.bind_eq_bind, Option.bind_eq_some_iff, Option.pure_def,
    Option.some.injEq, Prod.mk.injEq]
  constructor
  · rintro ⟨na', ha, np', hp, ni', hi, nt', ht, ng', hg, rfl, rfl, rfl, rfl, rfl⟩
    exact ⟨ha, hp, hi, ht, hg⟩
  · rintro ⟨ha, hp, hi, ht, hg⟩
    exact ⟨na, ha, np, hp, ni, hi, nt, ht, ng, hg, rfl, rfl, rfl, rfl, rfl⟩

/-! ### The steps -/

/-- The state after steps that were all granted. -/
def takeAll (steps : List InitStep) (s : PartitionState) : PartitionState :=
  steps.foldl (fun s step => step.granted s) s

theorem runInit_of_granted : ∀ {steps : List InitStep} {s : PartitionState} {arena : Arena},
    arena.allocBlocks (steps.map (·.block)) = (true, arena') →
      runInit (steps.map .ok) s arena = .ok (true, takeAll steps s, arena')
  | [], _, _, h => by
    obtain rfl := (Prod.mk.inj h).2
    rfl
  | step :: steps, s, arena, h => by
    rw [List.map_cons, Arena.allocBlocks] at h
    rw [List.map_cons, runInit]
    rcases hblock : arena.allocBlock step.block with ⟨_ | _, a⟩
    · rw [hblock] at h
      cases h
    · rw [hblock] at h
      exact runInit_of_granted h

/-- A run of the steps that succeeds took all of them. -/
theorem steps_of_runInit : ∀ {steps : List (Exec InitStep)} {s : PartitionState} {arena : Arena},
    runInit steps s arena = .ok (true, s', arena') → ∃ taken : List InitStep,
      steps = taken.map .ok ∧ arena.allocBlocks (taken.map (·.block)) = (true, arena') ∧
        s' = takeAll taken s
  | [], _, _, h => by
    obtain ⟨rfl, rfl⟩ : _ ∧ _ := by simpa [runInit] using h
    exact ⟨[], rfl, rfl, rfl⟩
  | .error _ :: _, _, _, h => by
    cases h
  | .ok step :: steps, s, arena, h => by
    rw [runInit] at h
    rcases hblock : arena.allocBlock step.block with ⟨_ | _, a⟩
    · rw [hblock] at h
      simp at h
    · rw [hblock] at h
      obtain ⟨taken, rfl, halloc, rfl⟩ := steps_of_runInit h
      refine ⟨step :: taken, rfl, ?_, rfl⟩
      rw [List.map_cons, Arena.allocBlocks, hblock]
      exact halloc

/-- The steps abort only where one of them does. -/
theorem mem_of_runInit {a : Abort} : ∀ {steps : List (Exec InitStep)} {s : PartitionState}
    {arena : Arena}, runInit steps s arena = .error a → .error a ∈ steps
  | [], _, _, h => by
    cases h
  | .error _ :: _, _, _, h => by
    obtain rfl := Except.error.inj h
    exact List.mem_cons_self
  | .ok step :: steps, s, arena, h => by
    rw [runInit] at h
    rcases hblock : arena.allocBlock step.block with ⟨_ | _, arena₁⟩
    · rw [hblock] at h
      cases h
    · rw [hblock] at h
      exact List.mem_cons_of_mem _ (mem_of_runInit h)

/-- The steps of the indexes whose slots can be counted. -/
theorem initSteps_of_slots {slots : ℕ × ℕ × ℕ × ℕ × ℕ} (hslots : indexSlots c = some slots) :
    ∃ steps, initSteps c = steps.map .ok ∧ steps.map (·.block) = initBlocks c slots ∧
      ∀ (s : PartitionState) (pid : UInt16),
        takeAll steps { s with id := pid, cap := { c with tables := s.cap.tables } } =
          s.initialised pid c slots := by
  obtain ⟨na, np, ni, nt, ng⟩ := slots
  obtain ⟨ha, hp, hi, ht, hg⟩ := indexSlots_eq_some.mp hslots
  refine ⟨tableSteps c ++ ((indexSteps c).map (fun x => x.2 ((slotCount x.1.toNat).getD 0)) ++
    restSteps c), ?_, ?_, ?_⟩
  · simp only [initSteps, indexSteps, sizedStep, List.map_cons, List.map_nil, ha, hp, hi, ht, hg,
      List.map_append,
      Option.getD_some]
  · simp only [indexSteps, List.map_cons, List.map_nil, ha, hp, hi, ht, hg, Option.getD_some]
    rfl
  · intro s pid
    simp only [indexSteps, List.map_cons, List.map_nil, ha, hp, hi, ht, hg, Option.getD_some]
    rfl

theorem exists_indexSlots {steps : List InitStep} (h : initSteps c = steps.map .ok) :
    ∃ slots, indexSlots c = some slots := by
  have hsome : ∀ x ∈ indexSteps c, ∃ n, slotCount x.1.toNat = some n := by
    intro x hx
    have hmem : sizedStep x ∈ initSteps c :=
      List.mem_append_right _ (List.mem_append_left _ (List.mem_map_of_mem hx))
    rw [h, sizedStep] at hmem
    obtain ⟨step, -, hstep⟩ := List.mem_map.mp hmem
    cases hn : slotCount x.1.toNat with
    | none =>
      rw [hn] at hstep
      cases hstep
    | some n => exact ⟨n, rfl⟩
  simp only [indexSteps, List.forall_mem_cons] at hsome
  obtain ⟨⟨na, ha⟩, ⟨np, hp⟩, ⟨ni, hi⟩, ⟨nt, ht⟩, ⟨ng, hg⟩, -⟩ := hsome
  exact ⟨(na, np, ni, nt, ng), indexSlots_eq_some.mpr ⟨ha, hp, hi, ht, hg⟩⟩

theorem eq_endlessLoop_of_mem {a : Abort} (h : .error a ∈ initSteps c) : a = .endlessLoop := by
  simp only [initSteps, List.mem_append, List.mem_map] at h
  obtain ⟨_, -, h⟩ | ⟨x, -, h⟩ | ⟨_, -, h⟩ := h
  · cases h
  · unfold sizedStep at h
    split at h
    · exact (Except.error.inj h).symm
    · cases h
  · cases h

/-! ### What `init` answers -/

theorem init_of_granted (target : PartitionState) (pid : UInt16)
    {slots : ℕ × ℕ × ℕ × ℕ × ℕ} (hslots : indexSlots c = some slots)
    (halloc : arena.allocBlocks (initBlocks c slots) = (true, arena'))
    (hover : arena'.overflowed = false) : target.init arena pid c =
      if 2 ^ 32 ≤ 3 * c.positions.toNat ∨ 2 ^ 32 ≤ 3 * c.accounts.toNat then .error .outOfBounds
      else .ok (true, target.initialised pid c slots, arena') := by
  obtain ⟨steps, hsteps, hblocks, htaken⟩ := initSteps_of_slots hslots
  have hrun := runInit_of_granted
    (s := { target with id := pid, cap := { c with tables := target.cap.tables } })
    (hblocks ▸ halloc)
  rw [htaken] at hrun
  simp only [init, hsteps, hrun, hover, bind, Except.bind]
  rw [if_neg (by decide)]

/-- An `init` that is granted everything. -/
theorem init_of_alloc (target : PartitionState) (pid : UInt16)
    (hcols : 3 * c.positions.toNat < 2 ^ 32 ∧ 3 * c.accounts.toNat < 2 ^ 32)
    {slots : ℕ × ℕ × ℕ × ℕ × ℕ} (hslots : indexSlots c = some slots)
    (halloc : arena.allocBlocks (initBlocks c slots) = (true, arena'))
    (hover : arena'.overflowed = false) :
    target.init arena pid c = .ok (true, target.initialised pid c slots, arena') := by
  rw [init_of_granted target pid hslots halloc hover, if_neg (by omega)]

/-- An `init` that succeeds was granted everything, and its slot columns are as long as its rows. -/
theorem init_eq_ok {target : PartitionState} (h : target.init arena pid c = .ok (true, s, arena')) :
    3 * c.positions.toNat < 2 ^ 32 ∧ 3 * c.accounts.toNat < 2 ^ 32 ∧
      ∃ slots, indexSlots c = some slots ∧ s = target.initialised pid c slots := by
  unfold init at h
  obtain ⟨⟨ok, s₁, arena₁⟩, hrun, h⟩ := except_bind_eq_ok.mp h
  dsimp only at h
  split_ifs at h with hok hcols
  · cases h
  · obtain ⟨rfl, rfl⟩ : _ ∧ _ := by simpa using h
    obtain rfl : ok = true := by
      cases ok with
      | false => exact absurd rfl hok
      | true => rfl
    obtain ⟨taken, hsteps, halloc, rfl⟩ := steps_of_runInit hrun
    obtain ⟨slots, hslots⟩ := exists_indexSlots hsteps
    obtain ⟨steps, hsteps', -, htaken⟩ := initSteps_of_slots hslots
    obtain rfl : taken = steps :=
      List.map_injective_iff.mpr (fun _ _ => Except.ok.inj) (hsteps.symm.trans hsteps')
    exact ⟨by omega, by omega, slots, hslots, htaken target pid⟩

/-- An `init` that is not granted everything is refused, unless it never ends. -/
theorem init_of_not_arenaFits (s : PartitionState) (pid : UInt16) (h : ¬ ArenaFits arena c) :
    (∃ s' arena', s.init arena pid c = .ok (false, s', arena')) ∨
      s.init arena pid c = .error .endlessLoop := by
  rw [init]
  rcases hrun : runInit (initSteps c)
      { s with id := pid, cap := { c with tables := s.cap.tables } } arena with a | ⟨ok, s₁, arena₁⟩
  · exact .inr (congrArg Except.error (eq_endlessLoop_of_mem (mem_of_runInit hrun)))
  · refine .inl ⟨s₁, arena₁, if_pos ?_⟩
    cases ok with
    | false => rfl
    | true =>
      obtain ⟨taken, hsteps, halloc, -⟩ := steps_of_runInit hrun
      obtain ⟨slots, hslots⟩ := exists_indexSlots hsteps
      obtain ⟨steps, hsteps', hblocks, -⟩ := initSteps_of_slots hslots
      obtain rfl : taken = steps :=
        List.map_injective_iff.mpr (fun _ _ => Except.ok.inj) (hsteps.symm.trans hsteps')
      rw [hblocks] at halloc
      simpa [ArenaFits, hslots, halloc] using h

theorem arenaFits_of_init (h : s.init arena pid c = .ok (true, s', arena')) :
    ArenaFits arena c := by
  by_contra hfits
  obtain ⟨_, _, h'⟩ | h' := init_of_not_arenaFits s pid hfits
  · rw [h] at h'
    cases h'
  · rw [h] at h'
    cases h'

end PartitionState

end MotorRv
