import MotorRv.Core.ImageRoundTrip
import MotorRv.Lib.Aborts

/-!
# What a load reads and writes

Each section of an image has its own offset, element size and count. The load adds offset and size
up in 64 bits and compares the sum with the size of the image: a sum past `2 ^ 64` comes out small,
and the section is read far outside. The sizes of the slot columns are products in 32 bits, and so
is the number of elements that is copied into them.

The accesses of a load are listed here without a state, for all capacities and all arenas. Where the
slot columns are as long as their rows, an access lies outside just when the load of the model
aborts.

`accesses` lists what a load would touch, from the bytes of the image and the arena alone, in the
order in which it happens, up to the point at which the load gives up. `staysInside_iff` then says
in terms of the sections when all of them lie inside: each section that the load comes to must be
`Contained`, that is, it is refused, or it lies in the image and its copy in the column. A section
whose end wraps is accepted by the code and is not contained.

To be sure that this is about the load of the model, the second half mirrors the load part by part
(`Mirrors`): a part reads outside exactly if one of its accesses lies outside, and ends well exactly
if the plan goes on. `loadStateImage_outOfBounds_iff` joins the parts.
-/

namespace MotorRv

open Lib

/-! ### Accesses -/

/-- So many bytes of the image from a position on, or so many bytes into a column with room for so
many. -/
inductive Access
  | image (start len : ℕ)
  | column (len room : ℕ)

/-- Nothing outside the image is read, nothing outside the column is written. -/
def Access.Inside (image : Bytes) : Access → Prop
  | .image start len => start + len ≤ image.length
  | .column len room => len ≤ room

/-- The size of a section. -/
def StateSectionRef.size (ref : StateSectionRef) : ℕ := ref.elemSize.toNat * ref.count.toNat

/-- Its bytes. -/
def StateSectionRef.bytes (ref : StateSectionRef) (image : Bytes) : Bytes :=
  slice image ref.offset.toNat ref.size

/-- What the load does with a section: whether it accepts the element size and the count, the room
in the column it copies the section into, and whether it goes on once it has the bytes. -/
structure SectionPlan where
  fits : StateSectionRef → Bool
  room : Option ℕ
  takes : StateSectionRef → Bytes → Bool

/-- The accesses for one section, and whether the load goes on. -/
def sectionAccesses (image : Bytes) (x : SectionPlan × StateSectionRef) : List Access × Bool :=
  if x.1.fits x.2 = false then ([], false)
  else if x.2.size = 0 then ([], true)
  else if image.length < (x.2.offset.toNat + x.2.size) % 2 ^ 64 then ([], false)
  else if crc32c 0 (x.2.bytes image) ≠ x.2.crc32c then
    ([.image x.2.offset.toNat x.2.size], false)
  else (.image x.2.offset.toNat x.2.size :: x.1.room.toList.map (.column x.2.size),
    x.1.takes x.2 (x.2.bytes image))

/-- The accesses for sections one after the other, up to the first at which the load stops. -/
def accessesFrom (image : Bytes) : List (SectionPlan × StateSectionRef) → List Access
  | [] => []
  | x :: xs => (sectionAccesses image x).1 ++
      if (sectionAccesses image x).2 then accessesFrom image xs else []

/-- A column of a table; the numbers of elements are products in 32 bits. -/
def columnPlan {ρ : Type} (cap count : UInt32) (c : Column ρ) : SectionPlan where
  fits ref := decide (ref.elemSize.toNat = c.elemSize ∧ ref.count = UInt32.ofNat c.perRow * count)
  room := some (c.elemSize * (UInt32.ofNat c.perRow * cap).toNat)
  takes _ _ := true

def exceptionPlan (h : StateImageHeader) : SectionPlan where
  fits ref := decide (ref.elemSize.toNat = 32 ∧
    ref.count = if h.exceptionCount < h.cap.exceptions then h.exceptionCount else h.cap.exceptions)
  room := some (32 * h.cap.exceptions.toNat)
  takes _ _ := true

/-- An idempotency set; the element size of an empty section is not looked at, and the members are
inserted one by one. -/
def setPlan (t : TwoGenSet) : SectionPlan where
  fits ref := decide (ref.size = 0 ∨ ref.elemSize.toNat = kKeyRecordBytes)
  room := none
  takes ref data := (Load.insertMembers t (Load.keyRecords data ref.count.toNat)).1

/-- An idempotency set as `init` leaves it, in the generation and with the date of the header. -/
def emptySet (slots : ℕ) (current : UInt32) (rotation : DateYmd) : TwoGenSet :=
  ⟨OpenTable.empty slots, OpenTable.empty slots, decide (current &&& 1 = 1), rotation⟩

/-- The columns, in the order of the format. -/
def columnPlans (h : StateImageHeader) : List SectionPlan :=
  custodyColumns.map (columnPlan h.cap.positions h.custodyCount) ++
    (accountColumns.map (columnPlan h.cap.accounts h.cashCount) ++
    (instrumentColumns.map (columnPlan h.cap.instruments h.instrumentCount) ++
    (tradeColumns.map (columnPlan h.cap.trades h.tradeCount) ++ [exceptionPlan h])))

/-- The forty sections of an image, with idempotency sets of so many slots. -/
def plannedSections (h : StateImageHeader) (slots : ℕ) : List (SectionPlan × StateSectionRef) :=
  (columnPlans h ++ [setPlan (emptySet slots h.actionsCurrent h.actionsRotationDate),
    setPlan (emptySet slots h.incomeCurrent h.incomeRotationDate)]).zip h.sections.toList

/-! ### What is allocated -/

/-- The indexes ask for their columns one after the other; the doubling of the slots of one that is
too large never ends. -/
def grantIndexes : Arena → List (UInt32 × (ℕ → Arena.Block)) → Exec (Bool × Arena)
  | a, [] => .ok (true, a)
  | a, (n, block) :: rest =>
    match slotCount n.toNat with
    | none => .error .endlessLoop
    | some slots =>
      match a.allocBlock (block slots) with
      | (true, a') => grantIndexes a' rest
      | (false, a') => .ok (false, a')

/-- The ledgers and tables. -/
def tableBlocks (c : PartitionCapacity) : List Arena.Block :=
  [PartitionState.custodyBlock c.positions, PartitionState.cashBlock c.accounts,
    PartitionState.instrumentBlock c.instruments, PartitionState.tradeBlock c.trades]

/-- The indexes and the generations of the two idempotency sets. -/
def indexBlocks (c : PartitionCapacity) : List (UInt32 × (ℕ → Arena.Block)) :=
  [(c.accounts, PartitionState.denseBlock), (c.positions, PartitionState.denseBlock),
    (c.instruments, PartitionState.denseBlock), (c.trades, PartitionState.denseBlock),
    (c.corporateActionsPerGen, PartitionState.pairBlock),
    (c.corporateActionsPerGen, PartitionState.pairBlock),
    (c.corporateActionsPerGen, PartitionState.pairBlock),
    (c.corporateActionsPerGen, PartitionState.pairBlock)]

/-- The columns of the accounts that are no ledger, and the exceptions. -/
def restBlocks (c : PartitionCapacity) : List Arena.Block :=
  [PartitionState.ownerBlock c.accounts, PartitionState.exceptionBlock c.exceptions]

/-- Whether `init` is granted everything it asks for. -/
def initGranted (arena : Arena) (c : PartitionCapacity) : Exec Bool :=
  match arena.allocBlocks (tableBlocks c) with
  | (false, _) => .ok false
  | (true, a) => do
    let (ok, a') ← grantIndexes a (indexBlocks c)
    .ok (ok && (a'.allocBlocks (restBlocks c)).1 && !(a'.allocBlocks (restBlocks c)).2.overflowed)

/-- The accesses of `load_state_image` to the image and to the columns: the header, then the
sections, once the header is accepted, everything is allocated and the counts fit. -/
def accesses (arena : Arena) (image : Bytes) : List Access :=
  if image.length < kStateImageHeaderBytes then []
  else .image 0 kStateImageHeaderBytes ::
    match loadHeader image with
    | .error _ => []
    | .ok h =>
      match initGranted arena h.cap, slotCount h.cap.corporateActionsPerGen.toNat with
      | .ok true, some slots =>
        if Load.countsFit h then accessesFrom image (plannedSections h slots) else []
      | _, _ => []

/-- Every access of the load lies inside. -/
def StaysInside (arena : Arena) (image : Bytes) : Prop :=
  ∀ a ∈ accesses arena image, a.Inside image

/-! ### Sections that are read outside -/

section Sections

variable {image : Bytes} {x : SectionPlan × StateSectionRef}
  {xs : List (SectionPlan × StateSectionRef)}

/-- A section that does not lie in the image and whose end, added up in 64 bits, does. -/
def Wraps (image : Bytes) (ref : StateSectionRef) : Prop :=
  0 < ref.size ∧ image.length < ref.offset.toNat + ref.size ∧
    (ref.offset.toNat + ref.size) % 2 ^ 64 ≤ image.length

/-- A section that lies in the image and has the checksum it claims. -/
def Sealed (image : Bytes) (ref : StateSectionRef) : Prop :=
  ref.offset.toNat + ref.size ≤ image.length ∧ crc32c 0 (ref.bytes image) = ref.crc32c

/-- A section that is loaded. -/
def Loads (image : Bytes) (x : SectionPlan × StateSectionRef) : Prop :=
  x.1.fits x.2 = true ∧
    (x.2.size = 0 ∨ Sealed image x.2 ∧ x.1.takes x.2 (x.2.bytes image) = true)

/-- A section for which nothing outside is read or written, should the load come to it. -/
def Contained (image : Bytes) (x : SectionPlan × StateSectionRef) : Prop :=
  x.1.fits x.2 = true →
    ¬ Wraps image x.2 ∧ (Sealed image x.2 → ∀ room ∈ x.1.room, x.2.size ≤ room)

/-- The accesses of a section stay inside just when it is contained. -/
theorem inside_sectionAccesses :
    (∀ a ∈ (sectionAccesses image x).1, a.Inside image) ↔ Contained image x := by
  unfold sectionAccesses Contained Wraps Sealed
  split_ifs with hfits hzero hrange hcrc
  · simp [hfits]
  · simp [hzero]
  · refine iff_of_true nofun fun _ => ⟨fun hwraps => by omega, fun hsealed => ?_⟩
    -- a section that lies in the image passes the check
    have hmod := Nat.mod_le (x.2.offset.toNat + x.2.size) (2 ^ 64)
    omega
  · have hpos : 0 < x.2.size := Nat.pos_of_ne_zero hzero
    simp only [List.forall_mem_singleton, Access.Inside]
    constructor
    · intro hin _
      exact ⟨fun hwraps => by omega, fun hsealed => absurd hsealed.2 hcrc⟩
    · intro h
      by_contra hout
      exact (h (by simpa using hfits)).1 ⟨hpos, by omega, by omega⟩
  · have hpos : 0 < x.2.size := Nat.pos_of_ne_zero hzero
    have hcrc' : crc32c 0 (x.2.bytes image) = x.2.crc32c := not_not.mp hcrc
    simp only [List.forall_mem_cons, List.forall_mem_map, Option.mem_toList, Access.Inside]
    constructor
    · rintro ⟨hin, hroom⟩ _
      exact ⟨fun hwraps => by omega, fun _ => hroom⟩
    · intro h
      obtain ⟨hwraps, hroom⟩ := h (by simpa using hfits)
      have hin : x.2.offset.toNat + x.2.size ≤ image.length := by
        by_contra hout
        exact hwraps ⟨hpos, by omega, by omega⟩
      exact ⟨hin, hroom ⟨hin, hcrc'⟩⟩

/-- The load goes on after a section it has loaded. -/
theorem goesOn_iff (hin : Contained image x) :
    (sectionAccesses image x).2 = true ↔ Loads image x := by
  unfold sectionAccesses Loads Sealed
  split_ifs with hfits hzero hrange hcrc
  · simp [hfits]
  · simp [hzero, hfits]
  · have hmod := Nat.mod_le (x.2.offset.toNat + x.2.size) (2 ^ 64)
    refine iff_of_false not_false ?_
    rintro ⟨-, h | h⟩
    · exact hzero h
    · have := h.1.1
      omega
  · refine iff_of_false not_false ?_
    rintro ⟨-, h | h⟩
    · exact hzero h
    · exact hcrc h.1.2
  · have hfits' : x.1.fits x.2 = true := by simpa using hfits
    have hsealed : x.2.offset.toNat + x.2.size ≤ image.length := by
      by_contra hout
      exact (hin hfits').1 ⟨Nat.pos_of_ne_zero hzero, by omega, by omega⟩
    exact ⟨fun h => ⟨hfits', .inr ⟨⟨hsealed, not_not.mp hcrc⟩, h⟩⟩,
      fun h => (h.2.resolve_left hzero).2⟩

/-- The accesses of several sections: the load goes on only behind a section that it loads. -/
theorem forall_accessesFrom_cons :
    (∀ a ∈ accessesFrom image (x :: xs), a.Inside image) ↔
      Contained image x ∧ (Loads image x → ∀ a ∈ accessesFrom image xs, a.Inside image) := by
  rw [accessesFrom, List.forall_mem_append, inside_sectionAccesses]
  refine and_congr_right fun hin => ?_
  rw [← goesOn_iff hin]
  cases (sectionAccesses image x).2 with
  | true => simp
  | false => simp

/-- All accesses lie inside just when each section does that the load comes to. -/
theorem forall_accessesFrom :
    (∀ a ∈ accessesFrom image xs, a.Inside image) ↔
      ∀ before x after, xs = before ++ x :: after → (∀ y ∈ before, Loads image y) →
        Contained image x := by
  induction xs with
  | nil => simp [accessesFrom]
  | cons x xs ih =>
    rw [forall_accessesFrom_cons, ih]
    constructor
    · rintro ⟨hx, hrest⟩ before y after hsplit hbefore
      cases before with
      | nil =>
        obtain ⟨rfl, -⟩ := List.cons.inj hsplit
        exact hx
      | cons z before =>
        obtain ⟨rfl, htail⟩ := List.cons.inj hsplit
        exact hrest (hbefore x List.mem_cons_self) before y after htail
          fun w hw => hbefore w (List.mem_cons_of_mem _ hw)
    · intro h
      refine ⟨h [] x xs rfl nofun, fun hloads before y after hsplit hbefore => ?_⟩
      refine h (x :: before) y after (by rw [hsplit, List.cons_append]) ?_
      exact List.forall_mem_cons.mpr ⟨hloads, hbefore⟩

end Sections

/-- An image without room for a header is refused before anything is read. -/
theorem loadHeader_of_short {image : Bytes} (h : image.length < kStateImageHeaderBytes) :
    loadHeader image = .error (.fail .shortPayload) := by
  rw [loadHeader, if_pos h]

/-- The load of an image reads nothing outside the image and writes nothing outside the columns just
when no section that it comes to wraps past `2 ^ 64` into the image or is larger than its column.
The load comes to a section when the header is accepted, everything is allocated, the counts fit and
every section before it was loaded. -/
theorem staysInside_iff (arena : Arena) (image : Bytes) :
    StaysInside arena image ↔
      ∀ h slots, loadHeader image = .ok h → initGranted arena h.cap = .ok true →
        slotCount h.cap.corporateActionsPerGen.toNat = some slots → Load.countsFit h = true →
        ∀ before x after, plannedSections h slots = before ++ x :: after →
          (∀ y ∈ before, Loads image y) → x.1.fits x.2 = true →
            ¬ Wraps image x.2 ∧ (Sealed image x.2 → ∀ room ∈ x.1.room, x.2.size ≤ room) := by
  unfold StaysInside accesses
  split_ifs with hshort
  · refine iff_of_true nofun ?_
    intro h slots hheader
    rw [loadHeader_of_short hshort] at hheader
    cases hheader
  · rw [List.forall_mem_cons, and_iff_right (by rw [Access.Inside]; omega)]
    cases hheader : loadHeader image with
    | error st => exact iff_of_true nofun nofun
    | ok h =>
      dsimp only
      split
      · rename_i slots hgranted hslots
        split_ifs with hfit
        · rw [forall_accessesFrom]
          constructor
          · rintro hin h' slots' hh' - hslots' -
            obtain rfl := Except.ok.inj hh'
            obtain rfl := Option.some.inj (hslots.symm.trans hslots')
            exact hin
          · exact fun hin => hin h slots rfl hgranted hslots hfit
        · refine iff_of_true nofun ?_
          rintro h' - hh' - - hfit'
          obtain rfl := Except.ok.inj hh'
          exact absurd hfit' hfit
      · rename_i hnone
        refine iff_of_true nofun ?_
        rintro h' slots hh' hgranted hslots -
        obtain rfl := Except.ok.inj hh'
        exact (hnone slots hgranted hslots).elim

/-! ### A section past the end of the address space -/

/-- A header with one position, whose first column ends at `2 ^ 64`. -/
def wrappingHeader : StateImageHeader :=
  { StateImageHeader.blank with
    magic := kStateImageMagic
    version := kStateImageVersion
    custodyCount := 1
    cap := ⟨2, 2, 2, 2, 2, 2, 2, 2, 60⟩
    sections := (Vector.replicate 40 ⟨0, 0, 0, 0⟩).set 0 ⟨UInt64.ofNat (2 ^ 64 - 8), 8, 1, 0⟩ }

/-- An image that is nothing but a header can pass its checks. -/
theorem loadHeader_encode {h : StateImageHeader} (hmagic : h.magic = kStateImageMagic)
    (hversion : h.version = kStateImageVersion) (hbytes : h.imageBytes = 0) :
    loadHeader h.encode = .ok h := by
  have hdec := h.decode_encode []
  have hcrc := h.crc_encode []
  rw [List.append_nil] at hdec hcrc
  unfold loadHeader
  rw [hdec, if_neg (by rw [h.length_encode]; omega), if_neg (not_not.mpr hmagic),
    if_neg (not_not.mpr hversion), if_neg (not_not.mpr hcrc), if_neg (by simp [hbytes])]

/-- Not every image is read inside: this one is read eight bytes before `2 ^ 64`. -/
theorem not_forall_staysInside : ¬ ∀ arena image, StaysInside arena image := by
  intro hall
  have hin := hall ⟨2 ^ 16, 0, false, false⟩ wrappingHeader.encode
  have hheader : loadHeader wrappingHeader.encode = .ok wrappingHeader :=
    loadHeader_encode rfl rfl rfl
  have hgranted : initGranted ⟨2 ^ 16, 0, false, false⟩ wrappingHeader.cap = .ok true := by
    decide +kernel
  have hslots : slotCount wrappingHeader.cap.corporateActionsPerGen.toNat = some 16 := by decide
  have hlen := wrappingHeader.length_encode
  unfold StaysInside accesses at hin
  rw [if_neg (by rw [hlen]; omega), List.forall_mem_cons, hheader] at hin
  dsimp only at hin
  rw [hgranted, hslots] at hin
  dsimp only at hin
  rw [if_pos (by decide)] at hin
  obtain ⟨x, xs, hfirst, hx⟩ : ∃ x xs, plannedSections wrappingHeader 16 = x :: xs ∧
      x.1.fits x.2 = true ∧ x.2.offset.toNat = 2 ^ 64 - 8 ∧ x.2.size = 8 :=
    ⟨_, _, rfl, by decide, by decide, by decide⟩
  rw [hfirst, forall_accessesFrom_cons] at hin
  obtain ⟨hfits, hoff, hsize⟩ := hx
  refine (hin.2.1 hfits).1 ?_
  rw [Wraps, hoff, hsize, hlen]
  decide

/-! ### The accesses are those of the load -/

/-- The accesses of the first sections decide whether the load comes to the rest. -/
theorem forall_accessesFrom_append {image : Bytes} {xs ys : List (SectionPlan × StateSectionRef)} :
    (∀ a ∈ accessesFrom image (xs ++ ys), a.Inside image) ↔
      (∀ a ∈ accessesFrom image xs, a.Inside image) ∧
        ((∀ x ∈ xs, Loads image x) → ∀ a ∈ accessesFrom image ys, a.Inside image) := by
  induction xs with
  | nil => simp [accessesFrom]
  | cons x xs ih =>
    rw [List.cons_append, forall_accessesFrom_cons, forall_accessesFrom_cons, ih,
      List.forall_mem_cons]
    tauto

namespace Load

variable {image : Bytes} {sa : PartitionState × Arena} {m n : Load PUnit}
  {x : SectionPlan × StateSectionRef} {xs ys : List (SectionPlan × StateSectionRef)}
  {Q R : PartitionState × Arena → Prop}

/-- The procedure does not read outside. -/
abbrev Safe (m : Load PUnit) (sa : PartitionState × Arena) : Prop :=
  Proc.Spares (· = .outOfBounds) m sa

/-- A part of the load over some sections: it reads outside just when one of their accesses lies
outside, it ends well just when all of them are loaded, and what it leaves has the property. -/
structure Mirrors (image : Bytes) (m : Load PUnit) (sa : PartitionState × Arena)
    (xs : List (SectionPlan × StateSectionRef)) (Q : PartitionState × Arena → Prop) : Prop where
  safe : Safe m sa ↔ ∀ a ∈ accessesFrom image xs, a.Inside image
  loads : (∀ a ∈ accessesFrom image xs, a.Inside image) →
    ((∃ sa', m sa = .ok (.ok ⟨⟩, sa')) ↔ ∀ x ∈ xs, Loads image x)
  leaves : ∀ sa', m sa = .ok (.ok ⟨⟩, sa') → Q sa'

/-- A part that mirrors its sections, in front of one whose safety is known. -/
theorem Mirrors.safe_bind (hm : Mirrors image m sa xs Q)
    (hn : ∀ sa', Q sa' → (Safe n sa' ↔ ∀ a ∈ accessesFrom image ys, a.Inside image)) :
    Safe (m >>= fun _ => n) sa ↔ ∀ a ∈ accessesFrom image (xs ++ ys), a.Inside image := by
  rw [forall_accessesFrom_append]
  refine Proc.spares_bind.trans ((and_congr_left' hm.safe).trans ?_)
  refine and_congr_right fun hin => ?_
  constructor
  · intro h hloads
    obtain ⟨sa', hsa'⟩ := (hm.loads hin).mpr hloads
    exact (hn sa' (hm.leaves sa' hsa')).mp (h ⟨⟩ sa' hsa')
  · intro h _ sa' hsa'
    exact (hn sa' (hm.leaves sa' hsa')).mpr (h ((hm.loads hin).mp ⟨sa', hsa'⟩))

/-- Parts that mirror their sections one after the other mirror all of them. -/
theorem Mirrors.bind (hm : Mirrors image m sa xs Q)
    (hn : ∀ sa', Q sa' → Mirrors image n sa' ys R) :
    Mirrors image (m >>= fun _ => n) sa (xs ++ ys) R where
  safe := hm.safe_bind fun sa' hsa' => (hn sa' hsa').safe
  loads hin := by
    obtain ⟨hxs, hys⟩ := forall_accessesFrom_append.mp hin
    rw [List.forall_mem_append, ← hm.loads hxs]
    constructor
    · rintro ⟨sa'', h⟩
      obtain ⟨_, sa', hsa', h'⟩ := Proc.bind_eq_value.mp h
      have hloads := (hm.loads hxs).mp ⟨sa', hsa'⟩
      exact ⟨⟨sa', hsa'⟩, ((hn sa' (hm.leaves sa' hsa')).loads (hys hloads)).mp ⟨sa'', h'⟩⟩
    · rintro ⟨⟨sa', hsa'⟩, hrest⟩
      have hloads := (hm.loads hxs).mp ⟨sa', hsa'⟩
      obtain ⟨sa'', h'⟩ := ((hn sa' (hm.leaves sa' hsa')).loads (hys hloads)).mpr hrest
      exact ⟨sa'', Proc.bind_eq_value.mpr ⟨⟨⟩, sa', hsa', h'⟩⟩
  leaves sa'' h := by
    obtain ⟨_, sa', hsa', h'⟩ := Proc.bind_eq_value.mp h
    exact (hn sa' (hm.leaves sa' hsa')).leaves sa'' h'

/-- A part that reads one section. -/
theorem Mirrors.single (hsafe : Safe m sa ↔ Contained image x)
    (hloads : Contained image x → ((∃ sa', m sa = .ok (.ok ⟨⟩, sa')) ↔ Loads image x))
    (hleaves : ∀ sa', m sa = .ok (.ok ⟨⟩, sa') → Q sa') : Mirrors image m sa [x] Q where
  safe := by
    rw [hsafe, forall_accessesFrom_cons]
    simp [accessesFrom]
  loads hin := by
    rw [hloads (forall_accessesFrom_cons.mp hin).1, List.forall_mem_singleton]
  leaves := hleaves

/-- The check of the code wraps around at `2 ^ 64`; the read does not. -/
theorem sectionAt_eq (ref : StateSectionRef) (detail : UInt32) (sa : PartitionState × Arena) :
    sectionAt image ref detail sa =
      if image.length < (ref.offset.toNat + ref.size) % 2 ^ 64 then
        .ok (.error (.fail .shortPayload), sa)
      else if image.length < ref.offset.toNat + ref.size then .error .outOfBounds
      else if crc32c 0 (ref.bytes image) ≠ ref.crc32c then
        .ok (.error (.fail .badCrc detail), sa)
      else .ok (.ok (ref.bytes image), sa) := by
  unfold sectionAt
  rw [Proc.bind_run]
  by_cases hrange : image.length < (ref.offset.toNat + ref.size) % 2 ^ 64
  · rw [if_pos hrange, Proc.guard, if_neg (by rw [StateSectionRef.size] at hrange; omega)]
    rfl
  · rw [if_neg hrange, run_guard (by rw [StateSectionRef.size] at hrange; omega)]
    dsimp only
    rw [Proc.bind_run]
    by_cases hout : image.length < ref.offset.toNat + ref.size
    · rw [if_pos hout, if_pos (by exact hout)]
      rfl
    · rw [if_neg hout, if_neg (by exact hout)]
      by_cases hcrc : crc32c 0 (ref.bytes image) = ref.crc32c
      · rw [if_neg (not_not.mpr hcrc)]
        exact (run_bind (run_guard hcrc _ _)).trans rfl
      · rw [if_pos hcrc]
        change ((Proc.guard (crc32c 0 (ref.bytes image) = ref.crc32c) _ >>= fun _ =>
          pure (ref.bytes image)) : Load Bytes) sa = _
        rw [Proc.bind_run, Proc.guard, if_neg hcrc]
        rfl

/-- Reading a section that was accepted, and what is done with its bytes. -/
theorem mirrors_sectionAt {p : SectionPlan} {ref : StateSectionRef} {g : Bytes → Load PUnit}
    (hfits : p.fits ref = true) (hroom : ∀ room ∈ p.room, ref.size ≤ room) (hpos : ref.size ≠ 0)
    (detail : UInt32) (hsafe : Safe (g (ref.bytes image)) sa)
    (htakes : (∃ sa', g (ref.bytes image) sa = .ok (.ok ⟨⟩, sa')) ↔
      p.takes ref (ref.bytes image) = true)
    (hleaves : ∀ sa', g (ref.bytes image) sa = .ok (.ok ⟨⟩, sa') → Q sa') :
    Mirrors image (sectionAt image ref detail >>= g) sa [(p, ref)] Q := by
  have hmod := Nat.mod_le (ref.offset.toNat + ref.size) (2 ^ 64)
  have hcontained : Contained image (p, ref) ↔ ¬ Wraps image ref :=
    ⟨fun h => (h hfits).1, fun h _ => ⟨h, fun _ => hroom⟩⟩
  have hloads : Loads image (p, ref) ↔
      Sealed image ref ∧ p.takes ref (ref.bytes image) = true := by
    simp [Loads, hfits, hpos]
  have hrun := Proc.bind_run (sectionAt image ref detail) g sa
  rw [sectionAt_eq] at hrun
  unfold Wraps at hcontained
  unfold Sealed at hloads
  split_ifs at hrun with hrange hout hcrc
  · refine .single (iff_of_true ?_ (hcontained.mpr fun h => by omega)) (fun _ => ?_) ?_
    · rw [Safe, Proc.Spares, hrun]
      exact avoids_ok _
    · rw [hrun, hloads]
      exact iff_of_false (by simp) (fun h => by have := h.1.1; omega)
    · rw [hrun]
      simp
  -- the sum of offset and size wraps, so the test passes and the read leaves the image
  · refine .single (iff_of_false ?_ fun h => hcontained.mp h ⟨by omega, by omega, by omega⟩)
      (fun h => absurd ⟨by omega, by omega, by omega⟩ (hcontained.mp h)) ?_
    · rw [Safe, Proc.Spares, hrun]
      simp
    · rw [hrun]
      simp
  · refine .single (iff_of_true ?_ (hcontained.mpr fun h => by omega)) (fun _ => ?_) ?_
    · rw [Safe, Proc.Spares, hrun]
      exact avoids_ok _
    · rw [hrun, hloads]
      exact iff_of_false (by simp) (fun h => hcrc h.1.2)
    · rw [hrun]
      simp
  · refine .single (iff_of_true ?_ (hcontained.mpr fun h => by omega)) (fun _ => ?_) ?_
    · rw [Safe, Proc.Spares, hrun]
      exact hsafe
    · rw [hrun, hloads, and_iff_right ⟨by omega, not_not.mp hcrc⟩]
      exact htakes
    · rw [hrun]
      exact hleaves

/-- What a part does at one state is what another does. -/
theorem Mirrors.of_eq {sa₁ : PartitionState × Arena} (hn : Mirrors image n sa₁ xs Q)
    (heq : m sa = n sa₁) : Mirrors image m sa xs Q where
  safe := by
    rw [← hn.safe, Safe, Safe, Proc.Spares, Proc.Spares, heq]
  loads := by
    rw [heq]
    exact hn.loads
  leaves := by
    rw [heq]
    exact hn.leaves

theorem mirrors_nil {sa₁ : PartitionState × Arena} (hm : m sa = .ok (.ok ⟨⟩, sa₁)) (hQ : Q sa₁) :
    Mirrors image m sa [] Q where
  safe := by
    rw [Safe, Proc.Spares, hm]
    exact iff_of_true (avoids_ok _) nofun
  loads _ := iff_of_true ⟨sa₁, hm⟩ nofun
  leaves sa' h := by
    cases hm.symm.trans h
    exact hQ

/-- A section that is refused before it is read. -/
theorem mirrors_refused {p : SectionPlan} {ref : StateSectionRef} (hfits : ¬ p.fits ref = true)
    {st : Status} (hm : m sa = .ok (.error st, sa)) : Mirrors image m sa [(p, ref)] Q := by
  refine .single (iff_of_true ?_ fun h => absurd h hfits) (fun _ => ?_) ?_
  · rw [Safe, Proc.Spares, hm]
    exact avoids_ok _
  · rw [hm]
    exact iff_of_false (by simp) fun h => hfits h.1
  · rw [hm]
    simp

/-- A section of no bytes. -/
theorem mirrors_empty {p : SectionPlan} {ref : StateSectionRef} (hfits : p.fits ref = true)
    (hzero : ref.size = 0) (hm : m sa = .ok (.ok ⟨⟩, sa)) (hQ : Q sa) :
    Mirrors image m sa [(p, ref)] Q := by
  refine .single (iff_of_true ?_ fun _ => ⟨fun h => h.1.ne' hzero, ?_⟩) (fun _ => ?_) ?_
  · rw [Safe, Proc.Spares, hm]
    exact avoids_ok _
  · intro _ room _
    exact hzero.trans_le (Nat.zero_le _)
  · exact iff_of_true ⟨sa, hm⟩ ⟨hfits, .inl hzero⟩
  · rintro sa' h
    cases hm.symm.trans h
    exact hQ

/-- What the copies of the columns keep: the counts, the capacities and the idempotency sets. -/
structure Filled (st₀ st : PartitionState) : Prop extends SameShape st st₀ where
  actions : st.appliedActions = st₀.appliedActions
  income : st.appliedIncome = st₀.appliedIncome

/-- A section of the model and the plan for it say the same. -/
structure Follows (st₀ : PartitionState) (sec : StateSection) (p : SectionPlan) : Prop where
  fits : ∀ st ref, Filled st₀ st → (p.fits ref = true ↔
    ref.elemSize.toNat = sec.elemSize ∧ ref.count.toNat = sec.count st)
  fill : ∀ st b, Filled st₀ st → Filled st₀ (sec.fill b st)
  room : ∀ ref, p.fits ref = true → ∀ room ∈ p.room, ref.size ≤ room
  takes : ∀ ref b, p.takes ref b = true

/-- The load of a column mirrors its section. -/
theorem mirrors_loadSection {st₀ st : PartitionState} {sec : StateSection} {p : SectionPlan}
    (hp : Follows st₀ sec p) (hst : Filled st₀ st) (ref : StateSectionRef) (k : ℕ) (a : Arena) :
    Mirrors image (loadSection image k sec ref) (st, a) [(p, ref)]
      fun sa' => Filled st₀ sa'.1 ∧ sa'.2 = a := by
  have hrun : loadSection image k sec ref (st, a) =
      ((Proc.guard (ref.elemSize.toNat = sec.elemSize ∧ ref.count.toNat = sec.count st)
        (.fail .stateCorrupt (UInt32.ofNat k)) : Load PUnit) >>= fun _ =>
          if ref.size = 0 then pure ⟨⟩
          else sectionAt image ref (UInt32.ofNat k) >>= fun data => modify (sec.fill data))
            (st, a) := rfl
  have hfits := hp.fits st ref hst
  by_cases hok : ref.elemSize.toNat = sec.elemSize ∧ ref.count.toNat = sec.count st
  · rw [run_bind (run_guard hok _ _)] at hrun
    by_cases hzero : ref.size = 0
    · rw [if_pos hzero] at hrun
      exact mirrors_empty (hfits.mpr hok) hzero hrun ⟨hst, rfl⟩
    · rw [if_neg hzero] at hrun
      refine .of_eq (mirrors_sectionAt (g := fun data => modify (sec.fill data)) (hfits.mpr hok)
        (hp.room ref (hfits.mpr hok)) hzero (UInt32.ofNat k) (avoids_ok _) ?_ ?_) hrun
      · rw [hp.takes]
        exact iff_of_true ⟨_, rfl⟩ rfl
      · rintro sa' h
        cases h
        exact ⟨hp.fill _ _ hst, rfl⟩
  · rw [Proc.bind_run, Proc.guard, if_neg hok] at hrun
    exact mirrors_refused (fun h => hok (hfits.mp h)) hrun

/-- The columns one after the other. -/
theorem mirrors_loadSections {st₀ : PartitionState} {a : Arena} {secs : List StateSection}
    {plans : List SectionPlan} (h : List.Forall₂ (Follows st₀) secs plans) :
    ∀ {refs : List StateSectionRef} {st : PartitionState} (k : ℕ), Filled st₀ st →
      Mirrors image (loadSections image k secs refs) (st, a) (plans.zip refs)
        fun sa' => Filled st₀ sa'.1 ∧ sa'.2 = a := by
  induction h with
  | nil =>
    intro refs st k hst
    exact mirrors_nil rfl ⟨hst, rfl⟩
  | @cons sec p secs plans hp _ ih =>
    intro refs st k hst
    cases refs with
    | nil => exact mirrors_nil rfl ⟨hst, rfl⟩
    | cons ref refs =>
      refine (mirrors_loadSection hp hst ref k a).bind ?_
      rintro ⟨st', _⟩ ⟨hst', rfl⟩
      exact ih (k + 1) hst'

/-- What is done with the members of an idempotency set. -/
theorem insert_run (get : PartitionState → TwoGenSet)
    (set : TwoGenSet → PartitionState → PartitionState) (ms : List (UInt64 × ℕ × Bool))
    (sa : PartitionState × Arena) :
    ((Proc.act fun sa => ((insertMembers (get sa.1) ms).1,
        (set (insertMembers (get sa.1) ms).2 sa.1, sa.2)) : Load Bool) >>= fun ok =>
      (Proc.guard (ok = true) (.fail .arenaExhausted) : Load PUnit)) sa =
      .ok (if (insertMembers (get sa.1) ms).1 =
        true then .ok ⟨⟩ else .error (.fail .arenaExhausted),
        (set (insertMembers (get sa.1) ms).2 sa.1, sa.2)) := by
  rw [run_bind (show (Proc.act _ : Load Bool) sa = .ok (.ok _, _) from rfl), Proc.guard]
  split_ifs
  · rfl
  · rfl

/-- The load of a set mirrors its section. -/
theorem mirrors_loadSet {get : PartitionState → TwoGenSet}
    {set : TwoGenSet → PartitionState → PartitionState} (ref : StateSectionRef)
    (hself : ∀ st, set (get st) st = st) (st : PartitionState) (a : Arena) :
    Mirrors image (loadSet image ref get set) (st, a) [(setPlan (get st), ref)]
      fun sa' => ∃ t, sa' = (set t st, a) := by
  by_cases hzero : ref.size = 0
  · have hrun : loadSet image ref get set (st, a) = .ok (.ok ⟨⟩, (st, a)) := by
      rw [loadSet, if_pos (by exact hzero)]
      rfl
    exact mirrors_empty (by simp [setPlan, hzero]) hzero hrun ⟨get st, by rw [hself]⟩
  · rw [loadSet, if_neg (by exact hzero)]
    by_cases helem : ref.elemSize.toNat = kKeyRecordBytes
    · refine .of_eq (mirrors_sectionAt (p := setPlan (get st)) (by simp [setPlan, helem])
        (by simp [setPlan]) hzero 0 ?_ ?_ ?_) (run_bind (run_guard helem _ _))
      · rw [Safe, Proc.Spares, insert_run]
        exact avoids_ok _
      · rw [insert_run]
        simp [setPlan]
      · rintro sa' h
        rw [insert_run] at h
        exact ⟨_, (Prod.mk.inj (Except.ok.inj h)).2.symm⟩
    · refine mirrors_refused (by simp [setPlan, hzero, helem])
        (?_ : _ = Except.ok (Except.error (Status.fail .stateCorrupt), _))
      rw [Proc.bind_run, Proc.guard, if_neg helem]
      rfl

section Columns

variable {ρ : Type} {get : PartitionState → List ρ}
  {set : List ρ → PartitionState → PartitionState} {st₀ : PartitionState} {cap count : UInt32}

/-- A product below `2 ^ 32` does not wrap. -/
theorem toNat_ofNat_mul {k : ℕ} {n : UInt32} (h : k * n.toNat < 2 ^ 32) :
    (UInt32.ofNat k * n).toNat = k * n.toNat := by
  rw [UInt32.toNat_mul, UInt32.toNat_ofNat', Nat.mod_mul_mod]
  exact Nat.mod_eq_of_lt h

/-- A column whose elements can be counted in 32 bits. -/
theorem follows_tableSection {c : Column ρ} (hle : count ≤ cap)
    (hwide : c.perRow * cap.toNat < 2 ^ 32)
    (hget : ∀ st, Filled st₀ st → (get st).length = count.toNat)
    (hset : ∀ st rows, Filled st₀ st → rows.length = (get st).length → Filled st₀ (set rows st)) :
    Follows st₀ (tableSection get set c) (columnPlan cap count c) where
  fits st ref hst := by
    have hmul : c.perRow * count.toNat < 2 ^ 32 :=
      (Nat.mul_le_mul_left _ (UInt32.le_iff_toNat_le.mp hle)).trans_lt hwide
    simp only [columnPlan, tableSection, decide_eq_true_eq, hget st hst,
      ← UInt32.toNat_inj, toNat_ofNat_mul hmul]
  fill st b hst := hset st _ hst (length_decodeColumn _ _ _)
  room ref hfits room hroom := by
    have hmul : c.perRow * count.toNat ≤ c.perRow * cap.toNat :=
      Nat.mul_le_mul_left _ (UInt32.le_iff_toNat_le.mp hle)
    simp only [columnPlan, decide_eq_true_eq] at hfits
    obtain rfl := Option.some.inj hroom
    rw [StateSectionRef.size, hfits.1, hfits.2, toNat_ofNat_mul (hmul.trans_lt hwide),
      toNat_ofNat_mul hwide]
    exact Nat.mul_le_mul_left _ hmul
  takes _ _ := rfl

/-- The numbers of a header, and columns long enough for them. -/
structure Counted (h : StateImageHeader) (st : PartitionState) : Prop where
  custody : st.custody.length = h.custodyCount.toNat
  accounts : st.accounts.length = h.cashCount.toNat
  instruments : st.instruments.length = h.instrumentCount.toNat
  trades : st.trades.length = h.tradeCount.toNat
  exceptionCount : st.exceptionCount = h.exceptionCount
  exceptions : st.cap.tables.exceptions = h.cap.exceptions

/-- The section of the exceptions has the plan that the header gives it. -/
theorem follows_exceptionSection {h : StateImageHeader} (hst₀ : Counted h st₀) :
    Follows st₀ exceptionSection (exceptionPlan h) := by
  have hmin : (if h.exceptionCount < h.cap.exceptions then h.exceptionCount
      else h.cap.exceptions).toNat = min h.exceptionCount.toNat h.cap.exceptions.toNat := by
    split_ifs with hlt
    · exact (Nat.min_eq_left (UInt32.lt_iff_toNat_lt.mp hlt).le).symm
    · exact (Nat.min_eq_right (UInt32.le_iff_toNat_le.mp (UInt32.not_lt.mp hlt))).symm
  refine ⟨fun st ref hst => ?_, fun st b hst => ?_, fun ref hfits room hroom => ?_, fun _ _ => rfl⟩
  · simp only [exceptionPlan, exceptionSection, keptExceptions, decide_eq_true_eq,
      ← UInt32.toNat_inj, hmin, hst.exceptionCount, hst.cap, hst₀.exceptionCount, hst₀.exceptions]
  · refine { hst with exceptions := ?_ }
    rw [← hst.exceptions]
    simp only [exceptionSection, List.length_append, length_decodeColumn, List.length_take,
      List.length_drop]
    omega
  · simp only [exceptionPlan, decide_eq_true_eq] at hfits
    obtain rfl := Option.some.inj hroom
    rw [StateSectionRef.size, hfits.1, hfits.2, hmin]
    exact Nat.mul_le_mul_left _ (Nat.min_le_right _ _)

/-- The columns have the plans that the header gives them. -/
theorem follows_columns {h : StateImageHeader} (hst₀ : Counted h st₀) (hfit : countsFit h = true)
    (hwide : 3 * h.cap.positions.toNat < 2 ^ 32 ∧ 3 * h.cap.accounts.toNat < 2 ^ 32) :
    List.Forall₂ (Follows st₀) columnSections (columnPlans h) := by
  simp only [countsFit, decide_eq_true_eq] at hfit
  obtain ⟨hcust, hacc, hinst, htrade⟩ := hfit
  have hi32 := h.cap.instruments.toNat_lt
  have ht32 := h.cap.trades.toNat_lt
  have hmaps : ∀ {ρ : Type} {cols : List (Column ρ)} {f : Column ρ → StateSection}
      {g : Column ρ → SectionPlan}, (∀ c ∈ cols, Follows st₀ (f c) (g c)) →
        List.Forall₂ (Follows st₀) (cols.map f) (cols.map g) := fun hall =>
    List.forall₂_map_left_iff.mpr (List.forall₂_map_right_iff.mpr (List.forall₂_same.mpr hall))
  refine List.rel_append (hmaps fun c hc => ?_) (List.rel_append (hmaps fun c hc => ?_)
    (List.rel_append (hmaps fun c hc => ?_) (List.rel_append (hmaps fun c hc => ?_) ?_)))
  · have hrow := Nat.mul_le_mul_right h.cap.positions.toNat (whole_custodyColumns c hc).perRow.2
    exact follows_tableSection hcust (by omega) (fun st hst => hst.custody.trans hst₀.custody)
      fun st rows hst hrows => { hst with custody := hrows.trans hst.custody }
  · have hrow := Nat.mul_le_mul_right h.cap.accounts.toNat (whole_accountColumns c hc).perRow.2
    exact follows_tableSection hacc (by omega) (fun st hst => hst.accounts.trans hst₀.accounts)
      fun st rows hst hrows => { hst with accounts := hrows.trans hst.accounts }
  · have hone := (whole_instrumentColumns c hc).2
    exact follows_tableSection hinst (by rw [hone]; omega)
      (fun st hst => hst.instruments.trans hst₀.instruments)
      fun st rows hst hrows => { hst with instruments := hrows.trans hst.instruments }
  · have hone := (whole_tradeColumns c hc).2
    exact follows_tableSection htrade (by rw [hone]; omega)
      (fun st hst => hst.trades.trans hst₀.trades)
      fun st rows hst hrows => { hst with trades := hrows.trans hst.trades }
  · exact .cons (follows_exceptionSection hst₀) .nil

end Columns

end Load

/-! ### The allocation -/

/-- Blocks are taken from the arena one after the other. -/
theorem allocBlocks_append : ∀ (xs ys : List Arena.Block) (a : Arena),
    a.allocBlocks (xs ++ ys) = match a.allocBlocks xs with
      | (true, a') => a'.allocBlocks ys
      | (false, a') => (false, a')
  | [], _, _ => rfl
  | x :: xs, ys, a => by
    rw [List.cons_append, Arena.allocBlocks, Arena.allocBlocks]
    rcases a.allocBlock x with ⟨_ | _, a'⟩
    · rfl
    · exact allocBlocks_append xs ys a'

/-- Indexes whose slots can be counted are asked for like everything else. -/
theorem grantIndexes_eq : ∀ {l : List (UInt32 × (ℕ → Arena.Block))} (a : Arena),
    (∀ x ∈ l, (slotCount x.1.toNat).isSome) →
      grantIndexes a l = .ok (a.allocBlocks (l.map fun x => x.2 ((slotCount x.1.toNat).getD 0)))
  | [], _, _ => rfl
  | (n, block) :: l, a, h => by
    obtain ⟨hn, hl⟩ := List.forall_mem_cons.mp h
    obtain ⟨slots, hslots⟩ := Option.isSome_iff_exists.mp hn
    rw [grantIndexes, List.map_cons, Arena.allocBlocks]
    simp only [hslots, Option.getD_some]
    rcases a.allocBlock (block slots) with ⟨_ | _, a'⟩
    · rfl
    · exact grantIndexes_eq a' hl

/-- An index too large is not granted. -/
theorem isSome_of_grantIndexes : ∀ {l : List (UInt32 × (ℕ → Arena.Block))} {a a' : Arena},
    grantIndexes a l = .ok (true, a') → ∀ x ∈ l, (slotCount x.1.toNat).isSome
  | [], _, _, _ => nofun
  | (n, block) :: l, a, a', h => by
    rw [grantIndexes] at h
    split at h
    · cases h
    · rename_i slots hslots
      split at h
      · exact List.forall_mem_cons.mpr ⟨by rw [hslots]; rfl, isSome_of_grantIndexes h⟩
      · cases h

/-- All the indexes have a size, or one has not. -/
theorem forall_indexBlocks {c : PartitionCapacity} :
    (∀ x ∈ indexBlocks c, (slotCount x.1.toNat).isSome) ↔ (PartitionState.indexSlots c).isSome := by
  unfold indexBlocks PartitionState.indexSlots
  simp only [List.forall_mem_cons, List.not_mem_nil, false_implies, implies_true, and_true]
  rcases slotCount c.accounts.toNat with _ | na
  · simp
  rcases slotCount c.positions.toNat with _ | np
  · simp
  rcases slotCount c.instruments.toNat with _ | ni
  · simp
  rcases slotCount c.trades.toNat with _ | nt
  · simp
  rcases slotCount c.corporateActionsPerGen.toNat with _ | ng
  · simp
  · simp

/-- The blocks that a state takes: the tables, the indexes and the rest. -/
theorem initBlocks_eq {c : PartitionCapacity} {slots : ℕ × ℕ × ℕ × ℕ × ℕ}
    (hslots : PartitionState.indexSlots c = some slots) :
    PartitionState.initBlocks c slots = tableBlocks c ++
      ((indexBlocks c).map (fun x => x.2 ((slotCount x.1.toNat).getD 0)) ++ restBlocks c) := by
  obtain ⟨na, np, ni, nt, ng⟩ := slots
  obtain ⟨ha, hp, hi, ht, hg⟩ := PartitionState.indexSlots_eq_some.mp hslots
  simp only [indexBlocks, List.map_cons, List.map_nil, ha, hp, hi, ht, hg, Option.getD_some]
  rfl

/-- Where the slots of the indexes can be counted, the allocation is that of the model. -/
theorem initGranted_eq {c : PartitionCapacity} {slots : ℕ × ℕ × ℕ × ℕ × ℕ} (arena : Arena)
    (hslots : PartitionState.indexSlots c = some slots) :
    initGranted arena c = .ok ((arena.allocBlocks (PartitionState.initBlocks c slots)).1 &&
      !(arena.allocBlocks (PartitionState.initBlocks c slots)).2.overflowed) := by
  have hsome := forall_indexBlocks.mpr (by rw [hslots]; rfl)
  rw [initBlocks_eq hslots, allocBlocks_append, initGranted]
  rcases arena.allocBlocks (tableBlocks c) with ⟨_ | _, a⟩
  · rfl
  dsimp only
  rw [grantIndexes_eq a hsome, allocBlocks_append]
  rcases a.allocBlocks _ with ⟨_ | _, a'⟩
  · rfl
  · rfl

/-- Where everything was granted the indexes have sizes. -/
theorem forall_indexBlocks_of_granted {arena : Arena} {c : PartitionCapacity}
    (h : initGranted arena c = .ok true) : ∀ x ∈ indexBlocks c, (slotCount x.1.toNat).isSome := by
  rw [initGranted] at h
  split at h
  · cases h
  · obtain ⟨⟨ok, a'⟩, hgrant, h⟩ := except_bind_eq_ok.mp h
    cases ok with
    | false => cases h
    | true => exact isSome_of_grantIndexes hgrant

/-! ### The load of the model -/

namespace Load

variable {image : Bytes} {h : StateImageHeader}

/-- What follows the sections. -/
def conclude (h : StateImageHeader) : Load PUnit := do
  modify (setScalars h)
  let ok ← Proc.act fun sa => (sa.1.rebuildIndexes.1, (sa.1.rebuildIndexes.2, sa.2))
  Proc.guard (ok = true) (.fail .arenaExhausted)
  let custody ← Proc.read fun sa => sa.1.custodyChecksum
  let cash ← Proc.read fun sa => sa.1.cashChecksum
  Proc.guard (custody = h.custodyChecksum ∧ cash = h.cashChecksum) (.fail .stateCorrupt)

/-- The end of a load reads nothing of the image. -/
theorem safe_conclude (sa : PartitionState × Arena) : Safe (conclude h) sa := by
  refine Proc.spares_update_bind.mpr ⟨avoids_ok _, fun _ _ => ?_⟩
  refine Proc.spares_act_bind.mpr (Proc.spares_guard_bind.mpr fun _ => ?_)
  refine Proc.spares_query_bind.mpr ⟨avoids_ok _, fun _ _ => ?_⟩
  exact Proc.spares_query_bind.mpr ⟨avoids_ok _, fun _ _ => Proc.spares_guard _ _⟩

/-- The sections, and what follows them. -/
def loadAll (image : Bytes) (h : StateImageHeader) : Load PUnit := do
  loadSections image 0 columnSections (h.sections.toList.take 38)
  modify (setState h)
  loadSet image (h.sections.get 38) (·.appliedActions) fun t s => { s with appliedActions := t }
  loadSet image (h.sections.get 39) (·.appliedIncome) fun t s => { s with appliedIncome := t }
  conclude h

/-- The forty sections: the columns and the two sets. -/
theorem plannedSections_eq (slots : ℕ) : plannedSections h slots =
    (columnPlans h).zip (h.sections.toList.take 38) ++
      ([(setPlan (emptySet slots h.actionsCurrent h.actionsRotationDate), h.sections.get 38)] ++
        [(setPlan (emptySet slots h.incomeCurrent h.incomeRotationDate), h.sections.get 39)]) := by
  have hlen : h.sections.toList.length = 40 := Vector.length_toList
  have hdrop : h.sections.toList.drop 38 = [h.sections.get 38, h.sections.get 39] := by
    rw [List.drop_eq_getElem_cons (by omega), List.drop_eq_getElem_cons (by omega),
      List.drop_eq_nil_of_le (by omega)]
    rfl
  have hzip : h.sections.toList =
      h.sections.toList.take 38 ++ [h.sections.get 38, h.sections.get 39] := by
    rw [← hdrop, List.take_append_drop]
  have hcols : (columnPlans h).length = (h.sections.toList.take 38).length := by
    rw [List.length_take, hlen]
    rfl
  unfold plannedSections
  conv_lhs => rw [hzip]
  rw [List.zip_append hcols]
  rfl

/-- The load of all sections is safe just when their accesses stay inside. -/
theorem safe_loadAll {st₀ : PartitionState} {slots : ℕ} (hst₀ : Counted h st₀)
    (hfit : countsFit h = true)
    (hwide : 3 * h.cap.positions.toNat < 2 ^ 32 ∧ 3 * h.cap.accounts.toNat < 2 ^ 32)
    (hactions : st₀.appliedActions = PartitionState.emptied st₀.appliedActions slots)
    (hincome : st₀.appliedIncome = PartitionState.emptied st₀.appliedIncome slots) (a : Arena) :
    Safe (loadAll image h) (st₀, a) ↔
      ∀ x ∈ accessesFrom image (plannedSections h slots), x.Inside image := by
  rw [plannedSections_eq]
  have hself : Filled st₀ st₀ := ⟨⟨rfl, rfl, rfl, rfl, rfl, rfl, rfl⟩, rfl, rfl⟩
  refine (mirrors_loadSections (follows_columns hst₀ hfit hwide) 0 hself).safe_bind ?_
  rintro ⟨st, b⟩ ⟨hst, rfl⟩
  have hactions' : (setState h st).appliedActions =
      emptySet slots h.actionsCurrent h.actionsRotationDate := by
    rw [setState, hst.actions, hactions]
    rfl
  have hincome' : (setState h st).appliedIncome =
      emptySet slots h.incomeCurrent h.incomeRotationDate := by
    rw [setState, hst.income, hincome]
    rfl
  rw [← hactions', ← hincome']
  have hmodify : Mirrors image (modify (setState h)) (st, b) []
      fun sa' => sa' = (setState h st, b) := mirrors_nil rfl rfl
  refine hmodify.safe_bind ?_
  rintro _ rfl
  refine (mirrors_loadSet _ (fun _ => rfl) _ _).safe_bind ?_
  rintro _ ⟨t, rfl⟩
  refine @Mirrors.safe_bind _ _ _ _ _ [] _
    (mirrors_loadSet _ (fun _ => rfl) { setState h st with appliedActions := t } b) ?_
  rintro _ ⟨t', rfl⟩
  exact iff_of_true (safe_conclude _) nofun

end Load

/-- Everything is granted just when the arena has room for it. -/
theorem initGranted_iff {arena : Arena} {c : PartitionCapacity} :
    initGranted arena c = .ok true ↔ ArenaFits arena c := by
  cases hslots : PartitionState.indexSlots c with
  | none =>
    refine iff_of_false (fun hok => ?_) (by simp [ArenaFits, hslots])
    have hsome := forall_indexBlocks.mp (forall_indexBlocks_of_granted hok)
    rw [hslots] at hsome
    cases hsome
  | some slots =>
    rw [initGranted_eq arena hslots]
    simp [ArenaFits, hslots]

/-- Where the slot columns are as long as their rows, an access of the load lies outside just when
the load of the model reads outside. -/
theorem loadStateImage_outOfBounds_iff (s : PartitionState) (arena : Arena) (image : Bytes)
    (hwide : ∀ h, loadHeader image = .ok h →
      3 * h.cap.positions.toNat < 2 ^ 32 ∧ 3 * h.cap.accounts.toNat < 2 ^ 32) :
    loadStateImage s arena image = .error .outOfBounds ↔ ¬ StaysInside arena image := by
  unfold StaysInside accesses
  -- an image shorter than its header is refused before anything of it is read
  by_cases hshort : image.length < kStateImageHeaderBytes
  · rw [loadStateImage, loadHeader_of_short hshort, if_pos hshort]
    simp
  rw [if_neg hshort, List.forall_mem_cons, and_iff_right (by rw [Access.Inside]; omega)]
  cases hheader : loadHeader image with
  | error st =>
    rw [loadStateImage, hheader]
    simp
  | ok h =>
    have hcap := hwide h hheader
    -- past the header only the body can leave the image
    have hrun : loadStateImage s arena image = .error .outOfBounds ↔
        ¬ Load.Safe (Load.loadBody image h) (s, arena) := by
      rw [loadStateImage, hheader, Load.Safe, Proc.Spares]
      dsimp only
      rcases Load.loadBody image h (s, arena) with d | ⟨_ | _, s', arena'⟩
      · change Except.error d = _ ↔ _
        simp
      · exact iff_of_false (fun h => by cases h) (not_not.mpr (avoids_ok _))
      · exact iff_of_false (fun h => by cases h) (not_not.mpr (avoids_ok _))
    rw [hrun, not_iff_not]
    dsimp only
    by_cases hfits : ArenaFits arena h.cap
    · obtain ⟨slots, hslots, halloc, hover⟩ := exists_slots hfits
      obtain ⟨-, -, -, -, hng⟩ := PartitionState.indexSlots_eq_some.mp hslots
      rw [initGranted_iff.mpr hfits, hng]
      generalize harena : (arena.allocBlocks (PartitionState.initBlocks h.cap slots)).2 = arena'
      -- the arena grants every block, so the load comes to the check of the counts
      have hinit := PartitionState.init_of_alloc s h.partitionId hcap hslots
        (Prod.ext halloc harena) (harena ▸ hover)
      have hrun : Load.loadInit h (s, arena) =
          .ok (.ok ⟨⟩, (s.initialised h.partitionId h.cap slots, arena')) := by
        rw [Load.loadInit, hinit]
        rfl
      have hbody : Load.loadBody image h (s, arena) =
          ((Proc.guard (Load.countsFit h = true) (.fail .stateCorrupt) : Load PUnit) >>= fun _ =>
            Load.loadAll image h)
            (Load.setCounts h (s.initialised h.partitionId h.cap slots), arena') :=
        (Load.run_bind hrun).trans (Load.run_bind rfl)
      rw [Load.Safe, Proc.Spares, hbody]
      refine Iff.trans Proc.spares_guard_bind ?_
      dsimp only
      split_ifs with hfit
      · rw [imp_iff_right hfit]
        obtain ⟨na, np, ni, nt, ng⟩ := slots
        exact Load.safe_loadAll ⟨List.length_replicate, List.length_replicate,
          List.length_replicate, List.length_replicate, rfl, rfl⟩ hfit hcap rfl rfl arena'
      · exact iff_of_true (fun h => absurd h hfit) (List.forall_mem_nil _)
    -- without room in the arena the load stops before it reads a section
    · have hnone : ∀ xs : ℕ → List Access, (match initGranted arena h.cap,
          slotCount h.cap.corporateActionsPerGen.toNat with
          | .ok true, some slots => xs slots
          | _, _ => []) = [] := by
        intro xs
        split
        · rename_i hgranted _
          exact absurd (initGranted_iff.mp hgranted) hfits
        · rfl
      refine iff_of_true ?_ (by rw [hnone]; exact List.forall_mem_nil _)
      rw [Load.Safe, Proc.Spares, Load.loadBody, Proc.bind_run, Load.loadInit]
      obtain ⟨s', arena', hinit⟩ | hinit :=
        PartitionState.init_of_not_arenaFits s h.partitionId hfits
      · simp only [hinit, bind, Except.bind]
        exact avoids_ok _
      · simp only [hinit, bind, Except.bind]
        rw [avoids_error]
        decide

end MotorRv
