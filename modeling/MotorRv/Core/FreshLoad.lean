import MotorRv.Core.ImageBounds
import MotorRv.Core.Replay

/-!
# What a load takes over from its target

`load_state_image` works on a state that may hold anything: an earlier load may have failed on it.
Of what it finds, a load past the header checks keeps only the dates, the applied LSN, the flags and
the generation and date of the idempotency sets, and all of these are overwritten before the
indexes are rebuilt. So the answer depends on the image alone, and where it is good so does the
state.

The load is run twice, from two targets that agree under a projection which forgets the fields in
question, and each part of it is shown to carry that relation (`Proc.Carries` of the library). The
sections are `Blind`: a column neither reads nor writes what the projection forgets. Up to the point
where the header sets these fields the two runs need not be in equal states; from there on they are.

`load_anywhere` is the result, for any two targets and any two arenas that grant what `init` asks
for. How far the arena is used is determined as well (`arena_of_load`), which is what a second
attempt with an older image starts from.
-/

namespace MotorRv

open Lib PartitionState

/-! ### States alike but for what is overwritten -/

/-- A state without its dates, LSN and flags. -/
def PartitionState.undated (s : PartitionState) : PartitionState :=
  { s with
    businessDate := 0
    prevBusinessDate := 0
    window := fun _ => 0
    appliedLsn := 0
    flags := 0 }

/-- The same without the generation and the date of the idempotency sets. -/
def PartitionState.unstamped (s : PartitionState) : PartitionState :=
  { s.undated with
    appliedActions := { s.appliedActions with current := false, rotation := 0 }
    appliedIncome := { s.appliedIncome with current := false, rotation := 0 } }

/-- The states are the same under a projection; the arenas may differ. -/
def Under (f : PartitionState → PartitionState) (x y : PartitionState × Arena) : Prop :=
  f x.1 = f y.1

namespace Load

variable {f : PartitionState → PartitionState} {image : Bytes} {h : StateImageHeader}

/-- A change that can be made under the projection. -/
theorem carries_modify {g : PartitionState → PartitionState} {f' : PartitionState → PartitionState}
    (hg : ∀ s t, f s = f t → f' (g s) = f' (g t)) : Proc.Carries (Under f) (Under f') (modify g) :=
  .update fun s t s' hA hs => by
    obtain rfl := Except.ok.inj hs
    exact ⟨_, rfl, hg _ _ hA⟩

/-- Reading a section does not look at the state. -/
theorem carries_sectionAt (ref : StateSectionRef) (detail : UInt32) :
    Proc.Carries (Under f) (Under f) (sectionAt image ref detail) :=
  .bind (.guard _ _) fun _ => .bind (.query fun _ _ _ _ hq => hq) fun _ =>
    .bind (.guard _ _) fun _ => .pure _

/-- A section that neither looks at what is overwritten nor changes it. -/
structure Blind (sec : StateSection) : Prop where
  count : ∀ s t, s.unstamped = t.unstamped → sec.count s = sec.count t
  fill : ∀ b s t, s.unstamped = t.unstamped → (sec.fill b s).unstamped = (sec.fill b t).unstamped

/-- A column reads and writes rows, and nothing that is stamped. -/
theorem blind_tableSection {ρ : Type} {get : PartitionState → List ρ}
    {set : List ρ → PartitionState → PartitionState} (c : Column ρ)
    (hget : ∀ s, get s.unstamped = get s)
    (hset : ∀ rows s, (set rows s).unstamped = set rows s.unstamped) :
    Blind (tableSection get set c) where
  count s t hst := by
    simp only [tableSection]
    rw [← hget s, hst, hget t]
  fill b s t hst := by
    simp only [tableSection]
    rw [hset, hset, ← hget s, hst, hget t]

/-- The section of the exceptions reads nothing that is stamped. -/
theorem blind_exceptionSection : Blind exceptionSection where
  count s t hst := by
    have h := congrArg keptExceptions hst
    exact h
  fill b s t hst := by
    have h := congrArg (exceptionSection.fill b) hst
    exact h

/-- None of the columns reads what is stamped. -/
theorem blind_columnSections : ∀ sec ∈ columnSections, Blind sec := by
  intro sec hsec
  simp only [columnSections, List.mem_append] at hsec
  obtain hsec | hsec | hsec | hsec | hsec := hsec
  · obtain ⟨c, -, rfl⟩ := List.mem_map.mp hsec
    exact blind_tableSection c (fun _ => rfl) fun _ _ => rfl
  · obtain ⟨c, -, rfl⟩ := List.mem_map.mp hsec
    exact blind_tableSection c (fun _ => rfl) fun _ _ => rfl
  · obtain ⟨c, -, rfl⟩ := List.mem_map.mp hsec
    exact blind_tableSection c (fun _ => rfl) fun _ _ => rfl
  · obtain ⟨c, -, rfl⟩ := List.mem_map.mp hsec
    exact blind_tableSection c (fun _ => rfl) fun _ _ => rfl
  · obtain rfl := List.mem_singleton.mp hsec
    exact blind_exceptionSection

/-- Loading a section from two states that only differ in what is stamped. -/
theorem carries_loadSection {sec : StateSection} (hsec : Blind sec) (k : ℕ)
    (ref : StateSectionRef) :
    Proc.Carries (Under unstamped) (Under unstamped) (loadSection image k sec ref) := by
  refine .bind (.query fun x y n hA hn => ?_) fun _ => .bind (.guard _ _) fun _ => .ite (.pure _) ?_
  · obtain rfl := Except.ok.inj hn
    exact congrArg Except.ok (hsec.count _ _ hA).symm
  · exact .bind (carries_sectionAt _ _) fun data => carries_modify (hsec.fill data)

/-- By induction on the sections. -/
theorem carries_loadSections {secs : List StateSection} (hsecs : ∀ sec ∈ secs, Blind sec) :
    ∀ (k : ℕ) (refs : List StateSectionRef),
      Proc.Carries (Under unstamped) (Under unstamped) (loadSections image k secs refs) := by
  induction secs with
  | nil => exact fun _ _ => .pure _
  | cons sec secs ih =>
    intro k refs
    obtain ⟨hsec, hrest⟩ := List.forall_mem_cons.mp hsecs
    cases refs with
    | nil => exact .pure _
    | cons ref refs => exact .bind (carries_loadSection hsec k ref) fun _ => ih hrest (k + 1) refs

/-- Filling a set looks at nothing but the set. -/
theorem carries_loadSet (ref : StateSectionRef) {get : PartitionState → TwoGenSet}
    {set : TwoGenSet → PartitionState → PartitionState} (hget : ∀ s, get s.undated = get s)
    (hset : ∀ t s, (set t s).undated = set t s.undated) :
    Proc.Carries (Under undated) (Under undated) (loadSet image ref get set) := by
  refine .ite (.pure _) (.bind (.guard _ _) fun _ => .bind (carries_sectionAt _ _) fun data =>
    .bind (.act fun x y hA => ?_) fun _ => .guard _ _)
  have hsame : get x.1 = get y.1 := by
    rw [← hget x.1, ← hget y.1]
    exact congrArg get hA
  refine ⟨by rw [hsame], ?_⟩
  rw [Under, hset, hset, hsame]
  exact congrArg (set (insertMembers (get y.1) (keyRecords data ref.count.toNat)).2) hA

/-- The header sets the generation and the date of the sets; what is left of the target is its
dates, LSN and flags. -/
theorem carries_setState :
    Proc.Carries (Under unstamped) (Under undated) (modify (setState h)) :=
  carries_modify fun s t hst => by
    have heq : (setState h s.unstamped).undated = (setState h t.unstamped).undated := by rw [hst]
    exact heq

/-- With the dates, the LSN and the flags nothing of the target is left. -/
theorem carries_setScalars : Proc.Carries (Under undated) (Under fun s => s)
    (modify (setScalars h)) :=
  carries_modify fun s t hst => by
    have heq := congrArg (setScalars h) hst
    exact heq

/-- The end of the load: once the scalars are set, the states are equal. -/
theorem carries_conclude : Proc.Carries (Under undated) (Under fun s => s) (conclude h) := by
  have hread : ∀ g : PartitionState → UInt64, Proc.Carries (Under fun s => s) (Under fun s => s)
      (Proc.read fun sa => g sa.1 : Load UInt64) := fun g =>
    .query fun x y n hA hn => by
      have hA : x.1 = y.1 := hA
      simpa only [hA] using hn
  have hact : Proc.Carries (Under fun s => s) (Under fun s => s)
      (Proc.act fun sa => (sa.1.rebuildIndexes.1, (sa.1.rebuildIndexes.2, sa.2)) : Load Bool) :=
    .act fun x y hA => by
      have hA : x.1 = y.1 := hA
      rw [hA]
      exact ⟨rfl, rfl⟩
  exact .bind carries_setScalars fun _ => .bind hact fun _ => .bind (.guard _ _) fun _ =>
    .bind (hread _) fun _ => .bind (hread _) fun _ => .guard _ _

/-- **The load after `init`.** States alike but for what is overwritten give the same answer, and
where it is good the same state. -/
theorem carries_loadAll (image : Bytes) (h : StateImageHeader) :
    Proc.Carries (Under unstamped) (Under fun s => s) (loadAll image h) :=
  .bind (carries_loadSections blind_columnSections _ _) fun _ => .bind carries_setState fun _ =>
    .bind (carries_loadSet _ (fun _ => rfl) fun _ _ => rfl) fun _ =>
      .bind (carries_loadSet _ (fun _ => rfl) fun _ _ => rfl) fun _ => carries_conclude

/-! ### The arena and the refusals -/

/-- The arena stays `b`, and a status that ends the procedure is not a good one. -/
abbrev InPlace {α : Type} (b : Arena) (m : Load α) : Prop :=
  Proc.Ensures (fun sa => sa.2 = b) m (fun _ sa => sa.2 = b) fun st sa => sa.2 = b ∧ st.isOk = false

variable {b : Arena}

theorem inPlace_guard {c : Prop} [Decidable c] {st : Status} (hst : st.isOk = false) :
    InPlace b (Proc.guard c st) :=
  .guard (fun _ h _ => h) fun _ h _ => ⟨h, hst⟩

theorem inPlace_query {α : Type} (q : PartitionState × Arena → Exec α) : InPlace b (Proc.query q) :=
  .query fun _ _ h _ => h

theorem inPlace_modify (g : PartitionState → PartitionState) : InPlace b (modify g) :=
  .update fun s s' h hs => by
    obtain rfl := Except.ok.inj hs
    exact h

theorem inPlace_sectionAt (ref : StateSectionRef) (detail : UInt32) :
    InPlace b (sectionAt image ref detail) :=
  .bind (inPlace_guard rfl) fun _ => .bind (inPlace_query _) fun _ =>
    .bind (inPlace_guard rfl) fun _ =>
    .pure fun _ h => h

theorem inPlace_loadSection (k : ℕ) (sec : StateSection) (ref : StateSectionRef) :
    InPlace b (loadSection image k sec ref) :=
  .bind (inPlace_query _) fun _ => .bind (inPlace_guard rfl) fun _ =>
    .ite (fun _ => .pure fun _ h => h)
    fun _ => .bind (inPlace_sectionAt _ _) fun _ => inPlace_modify _

/-- Loading sections takes nothing of the arena. -/
theorem inPlace_loadSections (secs : List StateSection) : ∀ (k : ℕ) (refs : List StateSectionRef),
    InPlace b (loadSections image k secs refs) := by
  induction secs with
  | nil => exact fun _ _ => .pure fun _ h => h
  | cons sec secs ih =>
    intro k refs
    cases refs with
    | nil => exact .pure fun _ h => h
    | cons ref refs => exact .bind (inPlace_loadSection k sec ref) fun _ => ih (k + 1) refs

theorem inPlace_loadSet (ref : StateSectionRef) (get : PartitionState → TwoGenSet)
    (set : TwoGenSet → PartitionState → PartitionState) : InPlace b (loadSet image ref get set) :=
  .ite (fun _ => .pure fun _ h => h) fun _ => .bind (inPlace_guard rfl) fun _ =>
    .bind (inPlace_sectionAt _ _) fun _ => .bind (.act fun _ h => h) fun _ => inPlace_guard rfl

theorem inPlace_conclude : InPlace b (conclude h) :=
  .bind (inPlace_modify _) fun _ => .bind (.act fun _ h => h) fun _ =>
    .bind (inPlace_guard rfl) fun _ =>
    .bind (inPlace_query _) fun _ => .bind (inPlace_query _) fun _ => inPlace_guard rfl

/-- Loading all the parts takes nothing of the arena. -/
theorem inPlace_loadAll (image : Bytes) (h : StateImageHeader) : InPlace b (loadAll image h) :=
  .bind (inPlace_loadSections _ _ _) fun _ => .bind (inPlace_modify _) fun _ =>
    .bind (inPlace_loadSet _ _ _) fun _ => .bind (inPlace_loadSet _ _ _) fun _ => inPlace_conclude

/-! ### The whole load -/

/-- What follows `init`. -/
abbrev afterInit (image : Bytes) (h : StateImageHeader) : Load PUnit := do
  Proc.guard (countsFit h = true) (.fail .stateCorrupt)
  loadAll image h

theorem inPlace_afterInit (image : Bytes) (h : StateImageHeader) : InPlace b (afterInit image h) :=
  .bind (inPlace_guard rfl) fun _ => inPlace_loadAll image h

end Load

/-- The arena after an `init` with the capacities. -/
def Arena.afterInit (arena : Arena) (c : PartitionCapacity) : Arena :=
  match indexSlots c with
  | none => arena
  | some slots => (arena.allocBlocks (initBlocks c slots)).2

/-- The load on an arena that grants what `init` asks for: what follows `init`, from the target with
its tables emptied. Capacities too large for 32 bits are left aside. -/
theorem loadBody_of_fits (image : Bytes) (h : StateImageHeader) :
    (∀ s arena, ArenaFits arena h.cap →
        Load.loadBody image h (s, arena) = .error .outOfBounds) ∨
      ∃ slots, ∀ s arena, ArenaFits arena h.cap →
        Load.loadBody image h (s, arena) = Load.afterInit image h
          (Load.setCounts h (s.initialised h.partitionId h.cap slots), arena.afterInit h.cap) := by
  by_cases hwide : 2 ^ 32 ≤ 3 * h.cap.positions.toNat ∨ 2 ^ 32 ≤ 3 * h.cap.accounts.toNat
  · refine .inl fun s arena hfits => ?_
    obtain ⟨slots, hslots, halloc, hover⟩ := exists_slots hfits
    rw [Load.loadBody, Proc.bind_run, Load.loadInit,
      init_of_granted s h.partitionId hslots (Prod.ext halloc rfl) hover, if_pos hwide]
    rfl
  cases hslots : indexSlots h.cap with
  | none =>
    refine .inr ⟨(0, 0, 0, 0, 0), fun s arena hfits => ?_⟩
    rw [ArenaFits, hslots] at hfits
    exact hfits.elim
  | some slots =>
    refine .inr ⟨slots, fun s arena hfits => ?_⟩
    rw [ArenaFits, hslots] at hfits
    have hafter : arena.afterInit h.cap = (arena.allocBlocks (initBlocks h.cap slots)).2 := by
      rw [Arena.afterInit, hslots]
    have hrun : Load.loadInit h (s, arena) =
        .ok (.ok ⟨⟩, (s.initialised h.partitionId h.cap slots, arena.afterInit h.cap)) := by
      rw [Load.loadInit, hafter, init_of_granted s h.partitionId hslots (Prod.ext hfits.1 rfl)
        hfits.2, if_neg hwide]
      rfl
    exact (Load.run_bind hrun).trans (Load.run_bind rfl)

/-- A state just initialised only depends on the header, apart from what is stamped. -/
theorem unstamped_initialised (s t : PartitionState) (h : StateImageHeader)
    (slots : ℕ × ℕ × ℕ × ℕ × ℕ) :
    (Load.setCounts h (s.initialised h.partitionId h.cap slots)).unstamped =
      (Load.setCounts h (t.initialised h.partitionId h.cap slots)).unstamped := rfl

theorem isOk_of_loadHeader {image : Bytes} {st : Status} (h : loadHeader image = .error st) :
    st.isOk = false := by
  unfold loadHeader at h
  dsimp only at h
  split_ifs at h
  all_goals
    obtain rfl := Except.error.inj h
    rfl

/-- **The answer of a load is that of its image.** From arenas that grant what `init` asks for, two
loads of an image answer the same, whatever the targets hold, and where the answer is good they
leave the same state. -/
theorem load_anywhere {image : Bytes} {s s' : PartitionState} {a a' : Arena} {st : Status}
    (hrun : loadStateImage s a image = .ok (st, s', a')) (t : PartitionState) (b : Arena)
    (ha : ∀ h, loadHeader image = .ok h → ArenaFits a h.cap)
    (hb : ∀ h, loadHeader image = .ok h → ArenaFits b h.cap) :
    ∃ t' b', loadStateImage t b image = .ok (st, t', b') ∧ (st.isOk = true → t' = s') := by
  unfold loadStateImage at hrun ⊢
  cases hheader : loadHeader image with
  | error e =>
    rw [hheader] at hrun
    obtain ⟨rfl, -⟩ := Prod.mk.inj (Except.ok.inj hrun)
    exact ⟨t, b, rfl, fun hok => absurd hok (by simp [isOk_of_loadHeader hheader])⟩
  | ok h =>
    rw [hheader] at hrun
    dsimp only at hrun ⊢
    obtain hwide | ⟨slots, hbody⟩ := loadBody_of_fits image h
    · rw [hwide s a (ha h hheader)] at hrun
      cases hrun
    rw [hbody s a (ha h hheader)] at hrun
    rw [hbody t b (hb h hheader)]
    obtain ⟨⟨r, u, a₁⟩, hr, hrun⟩ := except_bind_eq_ok.mp hrun
    -- after the initialisation the load reads nothing of what was there before
    have hcarries : Proc.Carries (Under unstamped) (Under fun s => s) (Load.afterInit image h) :=
      .bind (.guard _ _) fun _ => Load.carries_loadAll image h
    have hrel : Under unstamped
        (Load.setCounts h (s.initialised h.partitionId h.cap slots), a.afterInit h.cap)
        (Load.setCounts h (t.initialised h.partitionId h.cap slots), b.afterInit h.cap) :=
      unstamped_initialised s t h slots
    obtain ⟨⟨u', b₁⟩, hr', hsame⟩ := hcarries _ _ r (u, a₁) hrel hr
    rw [hr']
    cases r with
    | ok x =>
      obtain ⟨rfl, hu⟩ := Prod.mk.inj (Except.ok.inj hrun)
      obtain ⟨rfl, -⟩ := Prod.mk.inj hu
      exact ⟨u', b₁, rfl, fun _ => (hsame x rfl).symm⟩
    | error e =>
      obtain ⟨rfl, -⟩ := Prod.mk.inj (Except.ok.inj hrun)
      -- a refused load answers the same, but may leave what it had written
      have hbad := ((Load.inPlace_afterInit image h).error rfl hr).2
      exact ⟨u', b₁, rfl, fun hok => absurd hok (by simp [hbad])⟩

/-- The image of a state with trades and a key, loaded into a blank target and into one that was
used, from arenas of different sizes. -/
theorem load_anywhere_used : ∃ s₀ arena₀ sts s s' a' b',
    blank.init ⟨2 ^ 16, 0, false, false⟩ 1 ⟨3, 3, 3, 3, 2, 2, 2, 2, 60⟩ = .ok (true, s₀, arena₀) ∧
    applyAll s₀ (live tradingDay) = .ok (sts, s) ∧ s.trades.length = 2 ∧
    s.appliedIncome.contains 7 0 = true ∧
    loadStateImage blank ⟨2 ^ 16, 0, false, false⟩ (imageOf s) = .ok (.kOk, s', a') ∧
    loadStateImage { s₀ with businessDate := 20240102, appliedLsn := 7 } ⟨2 ^ 17, 3, false, false⟩
      (imageOf s) = .ok (.kOk, s', b') ∧ SameState s s' := by
  obtain ⟨s₀, arena₀, sts, s, -, -, hinit, hrun, -, hend⟩ := @exists_of_cutChecked
    ⟨3, 3, 3, 3, 2, 2, 2, 2, 60⟩ tradingDay 0
    (fun _ _ s => decide (s.trades.length = 2 ∧ s.appliedIncome.contains 7 0 = true ∧
      ArenaFits ⟨2 ^ 16, 0, false, false⟩ s.cap ∧ ArenaFits ⟨2 ^ 17, 3, false, false⟩ s.cap))
    (by decide +kernel)
  obtain ⟨htrades, hkey, ha, hb⟩ := of_decide_eq_true hend
  have hs : s.Sound := sound_applyAll (sound_init hinit) hrun
  have hcap : ∀ h, loadHeader (imageOf s) = .ok h → h.cap = s.cap := by
    intro h hh
    obtain rfl := Except.ok.inj (hh.symm.trans (loadHeader_imageOf hs))
    rfl
  obtain ⟨s', a', hload, hagree⟩ := loadStateImage_imageOf hs blank ha
  obtain ⟨t', b', hload', hsame⟩ := load_anywhere hload
    { s₀ with businessDate := 20240102, appliedLsn := 7 } ⟨2 ^ 17, 3, false, false⟩
    (fun h hh => hcap h hh ▸ ha) (fun h hh => hcap h hh ▸ hb)
  obtain rfl := hsame rfl
  exact ⟨s₀, arena₀, sts, s, t', a', b', hinit, hrun, htrades, hkey, hload, hload',
    hagree.sameState⟩

/-- The arena after a load. -/
def Arena.afterLoad (arena : Arena) (image : Bytes) : Arena :=
  match loadHeader image with
  | .error _ => arena
  | .ok h => arena.afterInit h.cap

/-- A load takes from the arena what `init` asks for, and nothing else. -/
theorem arena_of_load {image : Bytes} {s s' : PartitionState} {a a' : Arena} {st : Status}
    (hrun : loadStateImage s a image = .ok (st, s', a'))
    (ha : ∀ h, loadHeader image = .ok h → ArenaFits a h.cap) : a' = a.afterLoad image := by
  unfold loadStateImage at hrun
  unfold Arena.afterLoad
  cases hheader : loadHeader image with
  | error e =>
    rw [hheader] at hrun
    exact (Prod.mk.inj (Prod.mk.inj (Except.ok.inj hrun)).2).2.symm
  | ok h =>
    rw [hheader] at hrun
    dsimp only at hrun ⊢
    obtain hwide | ⟨slots, hbody⟩ := loadBody_of_fits image h
    · rw [hwide s a (ha h hheader)] at hrun
      cases hrun
    rw [hbody s a (ha h hheader)] at hrun
    obtain ⟨⟨r, u, a₁⟩, hr, hrun⟩ := except_bind_eq_ok.mp hrun
    have hin := Load.inPlace_afterInit (b := a.afterInit h.cap) image h
    cases r with
    | ok x =>
      obtain ⟨-, hu⟩ := Prod.mk.inj (Except.ok.inj hrun)
      exact (Prod.mk.inj hu).2.symm.trans (hin.ok rfl hr)
    | error e =>
      obtain ⟨-, hu⟩ := Prod.mk.inj (Except.ok.inj hrun)
      exact (Prod.mk.inj hu).2.symm.trans (hin.error rfl hr).1

end MotorRv
