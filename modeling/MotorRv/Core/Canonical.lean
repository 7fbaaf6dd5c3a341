import MotorRv.Core.Pending
import MotorRv.Lib.Reinsert

/-!
# Saving what was loaded

A state loaded from an image has the rows of the saved one and the same members in its idempotency
sets, so its own image has the same sections, up to the order of the members. That order is the slot
order of the tables, and the tables of the loaded state were filled in the slot order of the saved
ones: it is the same unless a member stands before its home slot.

An image is a function of the sizes, the columns and the sequence of the members, so two states that
no event can tell apart have images of the same length that differ, if at all, in the sections of
the idempotency sets (`Agree.imageOf_eq_iff`). `Refilled.members_iff` carries the library's result
on inserting entries again over to sets of two generations.

The equivalence is for every state that a session reaches, saved and loaded into an arena with room.
Where a member did stand before its home slot, the second image is a permutation of the first in
these sections, and saving and loading it again may permute it further.
-/

namespace MotorRv

open Lib PartitionState

/-! ### Idempotency sets -/

/-- No member stands before its home slot. -/
def TwoGenSet.Unwrapped (t : TwoGenSet) : Prop :=
  ∀ g, OpenTable.Unwrapped PairIndex.home (t.gen g)

instance (t : TwoGenSet) : Decidable t.Unwrapped :=
  inferInstanceAs (Decidable (∀ g, OpenTable.Unwrapped PairIndex.home (t.gen g)))

/-- The members of one generation, as entries. -/
def entriesOf (g : Bool) (ms : List (UInt64 × ℕ × Bool)) : List ((UInt64 × ℕ) × Unit) :=
  (ms.filter fun m => m.2.2 == g).map fun m => ((m.1, m.2.1), ())

theorem entriesOf_cons (g : Bool) (m : UInt64 × ℕ × Bool) (ms : List (UInt64 × ℕ × Bool)) :
    entriesOf g (m :: ms) =
      if m.2.2 = g then ((m.1, m.2.1), ()) :: entriesOf g ms else entriesOf g ms := by
  unfold entriesOf
  rw [List.filter_cons]
  by_cases hg : m.2.2 = g
  · simp [hg]
  · simp [hg]

theorem entriesOf_members (t : TwoGenSet) (g : Bool) :
    entriesOf g t.members = (t.gen g).entries := by
  unfold entriesOf TwoGenSet.members
  cases g with
  | false => simp [List.filter_map, Function.comp_def, TwoGenSet.gen]
  | true => simp [List.filter_map, Function.comp_def, TwoGenSet.gen]

/-- Two sets have the same members in the same order just when their generations do. -/
theorem members_eq_iff {t u : TwoGenSet} :
    u.members = t.members ↔ ∀ g, (u.gen g).entries = (t.gen g).entries := by
  constructor
  · intro h g
    rw [← entriesOf_members, ← entriesOf_members, h]
  · intro h
    have h0 : u.gen0.entries = t.gen0.entries := h false
    have h1 : u.gen1.entries = t.gen1.entries := h true
    rw [TwoGenSet.members, TwoGenSet.members, h0, h1]

theorem gen_setGen_of_ne {t : TwoGenSet} {g g' : Bool} (h : g' ≠ g) (u : PairIndex) :
    (t.setGen g' u).gen g = t.gen g := by
  cases g <;> cases g' <;> first | rfl | exact absurd rfl h

/-- What inserting members leaves in a generation. -/
theorem gen_of_insertMembers (g : Bool) : ∀ {ms : List (UInt64 × ℕ × Bool)} {t u : TwoGenSet},
    Load.insertMembers t ms = (true, u) →
      u.gen g = OpenTable.insertAll PairIndex.home (loadLimit (t.gen g).slots.length) (t.gen g)
        (entriesOf g ms)
  | [], t, u, h => by
    obtain ⟨-, rfl⟩ := Prod.mk.inj h
    rfl
  | m :: ms, t, u, h => by
    rw [Load.insertMembers] at h
    split at h
    · rename_i t' hins
      have hnext := gen_of_insertMembers g h
      rw [TwoGenSet.insertInto] at hins
      split at hins
      · rename_i v hadded
        obtain ⟨-, rfl⟩ := Prod.mk.inj hins
        rw [hnext, entriesOf_cons]
        split_ifs with hg
        · subst hg
          have hlen := TwoGenSet.length_insert (t.gen m.2.2) m.1 m.2.1
          rw [hadded] at hlen
          rw [gen_setGen, hlen]
          have hput : (OpenTable.insert PairIndex.home (loadLimit (t.gen m.2.2).slots.length)
              (t.gen m.2.2) (m.1, m.2.1) ()).2 = v := congrArg Prod.snd hadded
          rw [← hput]
          rfl
        · rw [gen_setGen_of_ne hg]
      · cases hins
    · cases h

/-- Inserted again, the members come in the same order just when none stands before its home. -/
theorem Refilled.members_iff {n slots : ℕ} {t u : TwoGenSet} (h : Refilled slots t u)
    (ht : t.Sound n) (hslots : slotCount n = some slots) :
    u.members = t.members ↔ t.Unwrapped := by
  obtain ⟨v, h0, h1, hins⟩ := h
  rw [members_eq_iff]
  refine forall_congr' fun g => ?_
  have hempty : v.gen g = OpenTable.empty slots := by
    cases g with
    | false => exact h0
    | true => exact h1
  have hgen : PairIndex.Sound n (t.gen g) := by
    cases g with
    | false => exact ht.gen0
    | true => exact ht.gen1
  have hlen : (t.gen g).slots.length = slots := Option.some.inj (hgen.slots.symm.trans hslots)
  rw [gen_of_insertMembers g hins, entriesOf_members, hempty, ← hlen]
  have hlimit : (OpenTable.empty (t.gen g).slots.length : PairIndex).slots.length =
      (t.gen g).slots.length := List.length_replicate
  rw [hlimit]
  exact OpenTable.entries_insertAll_iff hgen.wf hgen.size

/-! ### Images -/

section Image

variable {s t : PartitionState}

/-- The columns of two states that no event can tell apart are the same. -/
theorem Agree.columns (h : Agree s t) :
    columnSections.map (·.part t) = columnSections.map (·.part s) := by
  obtain ⟨c, rfl, hsame⟩ := h
  refine List.map_congr_left fun sec hsec => ?_
  simp only [columnSections, List.mem_append, custodySections, accountSections,
    instrumentSections, tradeSections, List.mem_map, List.mem_singleton] at hsec
  obtain ⟨c, -, rfl⟩ | ⟨c, -, rfl⟩ | ⟨c, -, rfl⟩ | ⟨c, -, rfl⟩ | rfl := hsec
  · rfl
  · rfl
  · rfl
  · rfl
  · have hdata : encodeColumn exceptionField (c.exceptions.take (keptExceptions s)) =
        encodeColumn exceptionField (s.exceptions.take (keptExceptions s)) := by
      rw [hsame.exceptions]
    exact congrArg (Part.mk _ _) hdata

theorem sectionBytes_pair (p q : Part) : sectionBytes [p, q] =
    (p.data ++ List.replicate (alinha8 (p.elemSize * p.count) - p.data.length) 0) ++
      (q.data ++ List.replicate (alinha8 (q.elemSize * q.count) - q.data.length) 0) := by
  rw [sectionBytes, List.flatMap_cons, List.flatMap_cons, List.flatMap_nil, List.append_nil]

/-- The members are read off a section. -/
theorem members_of_section {n : ℕ} {a b : TwoGenSet} (ha : a.Sound n) (hb : b.Sound n)
    (hsize : a.size = b.size)
    (h : (setPart a).data ++ List.replicate (alinha8 ((setPart a).elemSize * (setPart a).count) -
        (setPart a).data.length) 0 =
      (setPart b).data ++ List.replicate (alinha8 ((setPart b).elemSize * (setPart b).count) -
        (setPart b).data.length) 0) : a.members = b.members := by
  have hdata : a.members.flatMap keyRecord = b.members.flatMap keyRecord := by
    refine List.append_inj_left h ?_
    exact (fits_setPart ha).length.trans
      ((congrArg (16 * ·) hsize).trans (fits_setPart hb).length.symm)
  have hlen : a.members.length = b.members.length := by
    rw [length_members ha, length_members hb, hsize]
  calc a.members
    _ = Load.keyRecords (a.members.flatMap keyRecord) a.members.length :=
      (keyRecords_flatMap (rows_members ha)).symm
    _ = Load.keyRecords (b.members.flatMap keyRecord) b.members.length := by rw [hdata, hlen]
    _ = b.members := keyRecords_flatMap (rows_members hb)

theorem setPart_eq {a b : TwoGenSet} (hsize : a.size = b.size) (hmem : a.members = b.members) :
    setPart a = setPart b := by
  rw [setPart, setPart, hsize, hmem]

/-- Their sets are as large. -/
theorem Agree.sizes (h : Agree s t) : t.appliedActions.size = s.appliedActions.size ∧
    t.appliedIncome.size = s.appliedIncome.size := by
  obtain ⟨c, rfl, hsame⟩ := h
  refine ⟨?_, ?_⟩
  · rw [TwoGenSet.size, TwoGenSet.size, hsame.appliedActions.gen0.size,
      hsame.appliedActions.gen1.size]
    rfl
  · rw [TwoGenSet.size, TwoGenSet.size, hsame.appliedIncome.gen0.size,
      hsame.appliedIncome.gen1.size]
    rfl

theorem endFrom_append : ∀ (off : ℕ) (ps qs : List Part),
    endFrom off (ps ++ qs) = endFrom (endFrom off ps) qs
  | _, [], _ => rfl
  | _, _ :: ps, qs => endFrom_append _ ps qs

/-- Their images take as many bytes. -/
theorem Agree.stateImageBytes_eq (h : Agree s t) : stateImageBytes t = stateImageBytes s := by
  obtain ⟨hsizeA, hsizeI⟩ := h.sizes
  have hends : ∀ off, endFrom off [setPart t.appliedActions, setPart t.appliedIncome] =
      endFrom off [setPart s.appliedActions, setPart s.appliedIncome] := by
    intro off
    simp only [endFrom, setPart, hsizeA, hsizeI]
  rw [stateImageBytes, stateImageBytes, parts, parts, h.columns, endFrom_append, endFrom_append,
    hends]

/-- The images of two such states are the same just when their sets have the same members in the
same order. -/
theorem Agree.imageOf_eq_iff (h : Agree s t) (hs : s.Sound) :
    imageOf t = imageOf s ↔ t.appliedActions.members = s.appliedActions.members ∧
      t.appliedIncome.members = s.appliedIncome.members := by
  have hcols := h.columns
  have ht := h.sound hs
  obtain ⟨hsizeA, hsizeI⟩ := h.sizes
  obtain ⟨c, rfl, hsame⟩ := h
  constructor
  · intro heq
    have hbytes : sectionBytes (parts (s.withCaches c)) = sectionBytes (parts s) :=
      List.append_inj_right heq
        (by rw [StateImageHeader.length_encode, StateImageHeader.length_encode])
    rw [parts, parts, hcols, sectionBytes_append, sectionBytes_append, List.append_cancel_left_eq,
      sectionBytes_pair, sectionBytes_pair] at hbytes
    have hsets := List.append_inj hbytes (by
      rw [(fits_setPart ht.actions).length_bytes, (fits_setPart hs.actions).length_bytes]
      exact congrArg (fun n => alinha8 (16 * n)) hsizeA)
    exact ⟨members_of_section ht.actions hs.actions hsizeA hsets.1,
      members_of_section ht.income hs.income hsizeI hsets.2⟩
  · rintro ⟨hactions, hincome⟩
    have hparts : parts (s.withCaches c) = parts s := by
      rw [parts, parts, hcols]
      exact congrArg₂ (fun a b => _ ++ [a, b]) (setPart_eq hsizeA hactions)
        (setPart_eq hsizeI hincome)
    have hheader : headerOf (s.withCaches c) = headerOf s := by
      unfold headerOf stateImageBytes
      rw [hparts]
      simp only [withCaches, ← hsame.appliedActions.current, ← hsame.appliedActions.rotation,
        ← hsame.appliedIncome.current, ← hsame.appliedIncome.rotation]
      rfl
    rw [imageOf, imageOf, hheader, hparts]

/-- The image of a loaded state is the one it was loaded from just when no member of an idempotency
set stood before its home slot. -/
theorem imageOf_reloaded_iff (hs : s.Sound) (target : PartitionState) {arena : Arena}
    (harena : ArenaFits arena s.cap) :
    ∃ t arena', loadStateImage target arena (imageOf s) = .ok (.kOk, t, arena') ∧
      stateImageBytes t = stateImageBytes s ∧ (imageOf t = imageOf s ↔
        s.appliedActions.Unwrapped ∧ s.appliedIncome.Unwrapped) := by
  obtain ⟨t, arena', slots, hload, hag, hslots, hactions, hincome⟩ :=
    loadStateImage_refilled hs target harena
  refine ⟨t, arena', hload, hag.stateImageBytes_eq, ?_⟩
  · rw [hag.imageOf_eq_iff hs, hactions.members_iff hs.actions hslots,
      hincome.members_iff hs.income hslots]

end Image

/-! ### Runs -/

/-- A state that is reached, saved and loaded into an arena with room is saved to the same bytes
again if and only if no member of its idempotency sets stands before its home slot: no insertion
went around the end of its table. -/
theorem saveStateImage_reloaded_iff {arena₀ arena₁ : Arena} {pid : UInt16} {cap : PartitionCapacity}
    {s₀ s : PartitionState} {steps : List Step} {room : ℕ} {image : Bytes}
    (hinit : blank.init arena₀ pid cap = .ok (true, s₀, arena₁)) (h : Session s₀ steps s)
    (hsave : saveStateImage s room = .ok image) (target : PartitionState) {arena : Arena}
    (harena : ArenaFits arena s.cap) :
    ∃ t arena', loadStateImage target arena image = .ok (.kOk, t, arena') ∧
      (saveStateImage t room = .ok image ↔ s.appliedActions.Unwrapped ∧
        s.appliedIncome.Unwrapped) := by
  have hs := h.sound (sound_init hinit)
  have hroom : stateImageBytes s ≤ room := by
    by_contra hsmall
    rw [saveStateImage, if_pos (by omega)] at hsave
    cases hsave
  obtain rfl : imageOf s = image := Except.ok.inj ((saveStateImage_eq hroom).symm.trans hsave)
  obtain ⟨t, arena', hload, hbytes, hiff⟩ := imageOf_reloaded_iff hs target harena
  refine ⟨t, arena', hload, ?_⟩
  rw [saveStateImage_eq (by omega), Except.ok.injEq]
  exact hiff

/-- An income of nothing. -/
def emptyIncome (actionId : UInt64) : DividendPaid :=
  ⟨actionId, 1, 0, 0, 0, 0, 0, 1, 20260901, kStageAccrued⟩

/-- Two incomes whose keys start from the last slot of the table. -/
def wrappedIncomes : List Event := [.dividendPaid (emptyIncome 49), .dividendPaid (emptyIncome 61)]

/-- Not every state is saved to the same bytes again: here the second key goes around the end, and
after a load it comes first. -/
theorem not_forall_saveStateImage_reloaded : ¬ ∀ (arena₀ arena₁ : Arena) (pid : UInt16)
    (cap : PartitionCapacity) (s₀ s : PartitionState) (steps : List Step) (room : ℕ)
    (image : Bytes),
    blank.init arena₀ pid cap = .ok (true, s₀, arena₁) → Session s₀ steps s →
    saveStateImage s room = .ok image → ∀ (target : PartitionState) (arena : Arena),
    ArenaFits arena s.cap → ∃ t arena', loadStateImage target arena image = .ok (.kOk, t, arena') ∧
      saveStateImage t room = .ok image := by
  intro hall
  obtain ⟨s₀, arena₀, s, steps, hinit, h, hrun⟩ := @exists_of_runPasses
    ⟨2, 2, 2, 2, 2, 2, 2, 2, 60⟩ wrappedIncomes
    (fun _ s => decide (ArenaFits ⟨2 ^ 16, 0, false, false⟩ s.cap ∧ ¬ s.appliedIncome.Unwrapped))
    (by decide +kernel)
  obtain ⟨hfits, hwrapped⟩ := of_decide_eq_true hrun
  obtain ⟨t, arena', hload, hsame⟩ := hall _ _ _ _ _ _ _ _ _ hinit h (saveStateImage_eq le_rfl)
    blank _ hfits
  obtain ⟨t', arena'', hload', hbytes, hiff⟩ :=
    imageOf_reloaded_iff (h.sound (sound_init hinit)) blank hfits
  obtain ⟨rfl, -⟩ : t = t' ∧ arena' = arena'' := by simpa using hload.symm.trans hload'
  rw [saveStateImage_eq (by omega), Except.ok.injEq] at hsame
  exact hwrapped (hiff.mp hsame).2

/-- With the first of the two alone nothing went around the end. -/
theorem saveStateImage_reloaded_iff_one : ∃ s₀ arena₀ s steps,
    blank.init ⟨2 ^ 16, 0, false, false⟩ 1 ⟨2, 2, 2, 2, 2, 2, 2, 2, 60⟩ = .ok (true, s₀, arena₀) ∧
    Session s₀ steps s ∧ s.appliedIncome.size = 1 ∧
    ∃ t arena', loadStateImage blank ⟨2 ^ 16, 0, false, false⟩ (imageOf s) = .ok (.kOk, t, arena') ∧
      saveStateImage t (stateImageBytes s) = .ok (imageOf s) := by
  obtain ⟨s₀, arena₀, s, steps, hinit, h, hrun⟩ := @exists_of_runPasses
    ⟨2, 2, 2, 2, 2, 2, 2, 2, 60⟩ (wrappedIncomes.take 1)
    (fun _ s => decide (ArenaFits ⟨2 ^ 16, 0, false, false⟩ s.cap ∧ s.appliedIncome.size = 1 ∧
      s.appliedActions.Unwrapped ∧ s.appliedIncome.Unwrapped))
    (by decide +kernel)
  obtain ⟨hfits, hsize, hunwrapped⟩ := of_decide_eq_true hrun
  obtain ⟨t, arena', hload, hiff⟩ := saveStateImage_reloaded_iff hinit h (saveStateImage_eq le_rfl)
    blank hfits
  exact ⟨s₀, arena₀, s, steps, hinit, h, hsize, t, arena', hload, hiff.mpr hunwrapped⟩

end MotorRv
