import MotorRv.Core.Agree
import MotorRv.Core.SoundApply

/-!
# Loading what was saved

The image of a sound state loads, into whatever target and any arena with room for the same
capacities, and the state loaded agrees with the one saved: every field of every row has its
column, the references lead to the bytes of their sections, the indexes rebuilt from the rows
answer the same, and the members of the idempotency sets go back to their generation.

The proof follows the format. The fields of the header and the columns of the tables are read back
by evaluating `copyFields`; `Part.Fits` gives each section its place, eight bytes aligned, and
`loadSections_eq` is an induction along the sections in which each is found behind those before it.
Then come the parts that are not copied: the indexes, rebuilt over the keys of the rows
(`exists_insertKeys`), and the idempotency sets, whose members are inserted into empty generations
(`insertMembers_members`).

Soundness of the saved state is used for the counts, which must not exceed the capacities, and for
keys without duplicates. That the generations are told apart by a number in each member is why the
members go back to their generation even when only one of them is current.
-/

namespace MotorRv

open Lib PartitionState

/-! ### Fields -/

/-- Three amounts one after the other read back as the slots that they were. -/
@[simp]
theorem slots_slots (f : Slots Raw) :
    (![decI64 (slice (encI64 (f 0) ++ (encI64 (f 1) ++ encI64 (f 2))) 0 8),
      decI64 (slice (encI64 (f 0) ++ (encI64 (f 1) ++ encI64 (f 2))) 8 8),
      decI64 (slice (encI64 (f 0) ++ (encI64 (f 1) ++ encI64 (f 2))) 16 8)] : Slots Raw) = f := by
  have h0 : HoldsAt (encI64 (f 0) ++ (encI64 (f 1) ++ encI64 (f 2))) 0
      (encI64 (f 0) ++ (encI64 (f 1) ++ encI64 (f 2))) := List.prefix_rfl
  have s0 := h0.left.slice_eq
  have s1 := h0.right.left.slice_eq
  have s2 := h0.right.right.slice_eq
  simp only [length_encI64, Nat.zero_add] at s0 s1 s2
  rw [s0, s1, s2]
  simp only [decI64_encI64]
  funext k
  match k with
  | 0 => rfl
  | 1 => rfl
  | 2 => rfl

/-- A text of twelve bytes reads back as it was. -/
@[simp]
theorem text12_text12 (v : Vector UInt8 12) :
    (Vector.ofFn fun i : Fin 12 => v.toList.getD i 0) = v := by
  ext i hi
  simp [List.getD_eq_getElem?_getD]

theorem ofLe_le4 {n : ℕ} (h : n < 2 ^ 32) : ofLe (le 4 n) = n := by
  rw [ofLe_le]
  exact Nat.mod_eq_of_lt (by simpa using h)

/-- A link reads back as it was: no row has the number that stands for none. -/
theorem link_link {l : Option ℕ} (h : LinkOk l) :
    (if ofLe (le 4 (l.getD (2 ^ 32 - 1))) = 2 ^ 32 - 1 then none
      else some (ofLe (le 4 (l.getD (2 ^ 32 - 1))))) = l := by
  cases l with
  | none => decide
  | some n =>
    have hn := h n rfl
    rw [Option.getD_some, ofLe_le4 (by omega), if_neg (by omega)]

/-- The columns of the positions hold every field of a row. -/
theorem copy_custody {r : CustodyRow} (h : r.account < 2 ^ 32 ∧ r.instrument < 2 ^ 32)
    (r₀ : CustodyRow) : copyFields (custodyColumns.map Column.field) r r₀ = r := by
  simp [copyFields, custodyColumns, fieldI64, fieldSlots, fieldRow, fieldU8, ofLe_le4 h.1,
    ofLe_le4 h.2]

/-- The columns of the accounts hold every field of a row. -/
theorem copy_account {r : AccountRow} (h : LinkOk r.firstTrade) (r₀ : AccountRow) :
    copyFields (accountColumns.map Column.field) r r₀ = r := by
  simp only [copyFields, accountColumns, fieldI64, fieldSlots, fieldU64, fieldLink, List.map_cons,
    List.map_nil, List.foldl_cons, List.foldl_nil, decI64_encI64, decU64_encU64, slots_slots,
    link_link h]

/-- The columns of the instruments hold every field of a row. -/
theorem copy_instrument (r r₀ : InstrumentRow) :
    copyFields (instrumentColumns.map Column.field) r r₀ = r := by
  simp only [copyFields, instrumentColumns, fieldU32, fieldText12, fieldU8, fieldI64,
    List.map_cons, List.map_nil, List.foldl_cons, List.foldl_nil, decU32_encU32, decU8_encU8,
    decI64_encI64, text12_text12]

/-- The columns of the trades hold every field of a row. -/
theorem copy_trade {r : TradeRow}
    (h : r.account < 2 ^ 32 ∧ r.instrument < 2 ^ 32 ∧ LinkOk r.next) (r₀ : TradeRow) :
    copyFields (tradeColumns.map Column.field) r r₀ = r := by
  simp only [copyFields, tradeColumns, fieldU64, fieldRow, fieldI64, fieldU32, fieldU8, fieldLink,
    List.map_cons, List.map_nil, List.foldl_cons, List.foldl_nil, decU64_encU64, decI64_encI64,
    decU32_encU32, decU8_encU8, ofLe_le4 h.1, ofLe_le4 h.2.1, link_link h.2.2]

/-- An exception record is laid out without loss. -/
theorem copy_exception (r r₀ : ExceptionRecord) : copyFields exceptionFields r r₀ = r := by
  simp only [copyFields, exceptionFields, fieldU64, fieldI64, fieldU32, fieldU16, fieldPad,
    List.foldl_cons, List.foldl_nil, decU64_encU64, decI64_encI64, decU32_encU32, decU16_encU16]

theorem dec_exception (r r₀ : ExceptionRecord) :
    exceptionField.dec (exceptionField.enc r) r₀ = r := by
  have h := decodeFields_encodeFields exceptionFields r [] r₀
  rw [List.append_nil, copy_exception] at h
  exact h

/-! ### The header -/

theorem StateSectionRef.length_encode (r : StateSectionRef) : r.encode.length = 24 := by
  simp [StateSectionRef.encode]

/-- A reference to a section reads back as it was. -/
theorem StateSectionRef.decode_encode (r : StateSectionRef) : decode r.encode = r := by
  have h0 : HoldsAt r.encode 0 r.encode := List.prefix_rfl
  have s0 := h0.left.slice_eq
  have s1 := h0.right.left.slice_eq
  have s2 := h0.right.right.left.slice_eq
  have s3 := h0.right.right.right.left.slice_eq
  simp only [length_encU64, length_encU32, Nat.zero_add] at s0 s1 s2 s3
  simp only [decode, s0, s1, s2, s3, decU64_encU64, decU32_encU32]

/-- The references to the sections fill their part of the header and no other. -/
theorem copy_sections (h h₀ : StateImageHeader) :
    fieldSections.dec (fieldSections.enc h) h₀ = { h₀ with sections := h.sections } := by
  have hrefs : (Vector.ofFn fun k : Fin 40 => StateSectionRef.decode
      (slice (h.sections.toList.flatMap StateSectionRef.encode) (24 * k) 24)) = h.sections := by
    ext i hi
    rw [Vector.getElem_ofFn]
    rw [slice_flatMap StateSectionRef.encode StateSectionRef.length_encode _ i (by simpa using hi),
      StateSectionRef.decode_encode]
    simp
  simp only [fieldSections, hrefs]

/-- The dates of the window fill their part of the header and no other. -/
theorem copy_window (h h₀ : StateImageHeader) :
    fieldWindow.dec (fieldWindow.enc h) h₀ = { h₀ with windowDates := h.windowDates } := by
  have h0 : HoldsAt (fieldWindow.enc h) 0 (fieldWindow.enc h) := List.prefix_rfl
  have s0 := h0.left.slice_eq
  have s1 := h0.right.left.slice_eq
  have s2 := h0.right.right.slice_eq
  simp only [length_encU32, Nat.zero_add] at s0 s1 s2
  have hw : (![decU32 (slice (fieldWindow.enc h) 0 4), decU32 (slice (fieldWindow.enc h) 4 4),
      decU32 (slice (fieldWindow.enc h) 8 4)] : SettlementWindow) = h.windowDates := by
    rw [s0, s1, s2]
    simp only [decU32_encU32]
    funext k
    match k with
    | 0 => rfl
    | 1 => rfl
    | 2 => rfl
  exact congrArg (fun w => { h₀ with windowDates := w }) hw

/-- The capacities fill their part of the header and no other. -/
theorem copy_cap (h h₀ : StateImageHeader) :
    fieldCap.dec (fieldCap.enc h) h₀ = { h₀ with cap := h.cap } := by
  have hc := decodeFields_encodeFields capFields h.cap [] h₀.cap
  have hcopy : copyFields capFields h.cap h₀.cap = h.cap := by
    simp only [copyFields, capFields, fieldU32, fieldI32, List.foldl_cons, List.foldl_nil,
      decU32_encU32, decI32_encI32]
  rw [List.append_nil, hcopy] at hc
  exact congrArg (fun c => { h₀ with cap := c }) hc

/-- The fields of the header are laid out without loss. -/
theorem copy_header (h h₀ : StateImageHeader) : copyFields headerFields h h₀ = h := by
  simp only [copyFields, headerFields, List.foldl_cons, List.foldl_nil, copy_sections, copy_window,
    copy_cap, fieldU16, fieldU32, fieldU64, fieldPad, decU16_encU16, decU32_encU32, decU64_encU64]

theorem length_headerFields (h : StateImageHeader) :
    (encodeFields headerFields h).length = kHeaderCrcOffset := by
  rw [length_encodeFields]
  rfl

/-- The header has the size that the format gives it. -/
theorem StateImageHeader.length_encode (h : StateImageHeader) :
    h.encode.length = kStateImageHeaderBytes := by
  simp [StateImageHeader.encode, length_headerFields, kHeaderCrcOffset, kStateImageHeaderBytes]

/-- The header reads back as it was, whatever follows it. -/
theorem StateImageHeader.decode_encode (h : StateImageHeader) (rest : Bytes) :
    StateImageHeader.decode (h.encode ++ rest) = h := by
  rw [StateImageHeader.decode, StateImageHeader.encode, List.append_assoc,
    decodeFields_encodeFields, copy_header]

/-- The checksum stored in a written header is the one that is computed over it. -/
theorem StateImageHeader.crc_encode (h : StateImageHeader) (rest : Bytes) :
    crcDoCabecalho (h.encode ++ rest) = decU32 (slice (h.encode ++ rest) kHeaderCrcOffset 4) := by
  have hlen := length_headerFields h
  have hat : HoldsAt (h.encode ++ rest) 0 h.encode := List.prefix_append _ _
  have hcrc := hat.right.left.slice_eq
  have hres := hat.right.right.slice_eq
  simp only [hlen, Nat.zero_add, length_encU32] at hcrc hres
  have hzero : ∀ x : Bytes, x.length = 4 →
      slice (encodeFields headerFields h ++ (x ++ encU32 0)) (kHeaderCrcOffset + 4) 4 =
        encU32 0 := by
    intro x hx
    have hz : HoldsAt (encodeFields headerFields h ++ (x ++ encU32 0)) 0
        (encodeFields headerFields h ++ (x ++ encU32 0)) := List.prefix_rfl
    have := hz.right.right.slice_eq
    rwa [hlen, hx, Nat.zero_add, length_encU32] at this
  rw [hcrc, decU32_encU32, crcDoCabecalho, crcDoCabecalho, hres, hzero _ (by simp)]
  congr 1
  congr 1
  rw [StateImageHeader.encode, List.append_assoc, List.take_left' hlen, List.take_left' hlen]

/-! ### Sections -/

/-- The data of a section has the size that its reference gives, and everything fits. -/
structure Part.Fits (p : Part) : Prop where
  length : p.data.length = p.elemSize * p.count
  elemSize : p.elemSize ≤ 32
  count : p.count < 2 ^ 32

/-- Padding to eight counts from any multiple of eight. -/
theorem alinha8_add {off n : ℕ} (h : 8 ∣ off) : alinha8 (off + n) = off + alinha8 n := by
  unfold alinha8
  omega

theorem dvd_alinha8 (n : ℕ) : 8 ∣ alinha8 n := Dvd.intro_left _ rfl

theorem le_alinha8 (n : ℕ) : n ≤ alinha8 n := by
  unfold alinha8
  omega

/-- A section takes its elements, padded to a multiple of eight. -/
theorem Part.Fits.length_bytes {p : Part} (h : p.Fits) :
    (p.data ++ List.replicate (alinha8 (p.elemSize * p.count) - p.data.length) 0).length =
      alinha8 (p.elemSize * p.count) := by
  have := le_alinha8 (p.elemSize * p.count)
  rw [List.length_append, List.length_replicate, h.length]
  omega

/-- The offset behind the sections is where their bytes end. -/
theorem endFrom_eq : ∀ {ps : List Part} {off : ℕ}, 8 ∣ off → (∀ p ∈ ps, p.Fits) →
    endFrom off ps = off + (sectionBytes ps).length
  | [], off, _, _ => by simp [endFrom, sectionBytes]
  | p :: ps, off, hoff, h => by
    have hp := h p (by simp)
    have hrec : endFrom (alinha8 (off + p.elemSize * p.count)) ps =
        alinha8 (off + p.elemSize * p.count) + (sectionBytes ps).length :=
      endFrom_eq (dvd_alinha8 _) fun q hq => h q (by simp [hq])
    have hcons : sectionBytes (p :: ps) = (p.data ++
        List.replicate (alinha8 (p.elemSize * p.count) - p.data.length) 0) ++ sectionBytes ps := rfl
    rw [endFrom, hrec, alinha8_add hoff, hcons, List.length_append, hp.length_bytes, Nat.add_assoc]

/-- Every section begins at a multiple of eight. -/
theorem dvd_endFrom : ∀ {off : ℕ} (ps : List Part), 8 ∣ off → 8 ∣ endFrom off ps
  | _, [], h => h
  | _, _ :: ps, _ => dvd_endFrom ps (dvd_alinha8 _)

/-- The sections of an image are bounded by their number, as the counts are of 32 bits. -/
theorem length_sectionBytes_le : ∀ {ps : List Part}, (∀ p ∈ ps, p.Fits) →
    (sectionBytes ps).length ≤ ps.length * (32 * 2 ^ 32 + 8)
  | [], _ => by simp [sectionBytes]
  | p :: ps, h => by
    have hp := h p (by simp)
    have hps : ∀ q ∈ ps, q.Fits := fun q hq => h q (by simp [hq])
    have hrec := length_sectionBytes_le hps
    have hmul : p.elemSize * p.count ≤ 32 * 2 ^ 32 :=
      Nat.mul_le_mul hp.elemSize hp.count.le
    have hal : alinha8 (p.elemSize * p.count) ≤ 32 * 2 ^ 32 + 8 := by
      unfold alinha8
      omega
    have hcons : sectionBytes (p :: ps) = (p.data ++
        List.replicate (alinha8 (p.elemSize * p.count) - p.data.length) 0) ++ sectionBytes ps := rfl
    rw [hcons, List.length_append, hp.length_bytes, List.length_cons, Nat.succ_mul]
    omega

theorem length_refsFrom : ∀ (off : ℕ) (ps : List Part), (refsFrom off ps).length = ps.length
  | _, [] => rfl
  | off, p :: ps => by rw [refsFrom, List.length_cons, List.length_cons, length_refsFrom]

/-- Where the rest of the sections starts. -/
theorem refsFrom_append : ∀ (off : ℕ) (ps qs : List Part),
    refsFrom off (ps ++ qs) = refsFrom off ps ++ refsFrom (endFrom off ps) qs
  | _, [], _ => rfl
  | off, p :: ps, qs => by
    rw [List.cons_append, refsFrom, refsFrom, endFrom, List.cons_append, refsFrom_append]

variable {image : Bytes}

namespace Load

theorem run_bind {α β : Type} {m : Load α} {f : α → Load β} {sa sa' : PartitionState × Arena}
    {a : α} (h : m sa = .ok (.ok a, sa')) : (m >>= f) sa = f a sa' := by
  rw [Proc.bind_run, h]

theorem run_guard {c : Prop} [Decidable c] (hc : c) (st : Status) (sa : PartitionState × Arena) :
    (Proc.guard c st : Load PUnit) sa = .ok (.ok ⟨⟩, sa) := by
  rw [Proc.guard, if_pos hc]
  rfl

/-- A section that the image holds where its reference says is read. -/
theorem sectionAt_of_holdsAt {p : Part} (hp : p.Fits) {off : ℕ}
    (hat : HoldsAt image off p.data) (hoff : off + p.elemSize * p.count ≤ image.length)
    (hlen : image.length < 2 ^ 64) (hne : p.elemSize * p.count ≠ 0) (detail : UInt32)
    (sa : PartitionState × Arena) :
    sectionAt image ⟨UInt64.ofNat off, UInt32.ofNat p.elemSize, UInt32.ofNat p.count,
      if p.elemSize * p.count = 0 then 0 else crc32c 0 p.data⟩ detail sa =
        .ok (.ok p.data, sa) := by
  have ho : (UInt64.ofNat off).toNat = off := by
    rw [UInt64.toNat_ofNat']
    exact Nat.mod_eq_of_lt (by omega)
  have he : (UInt32.ofNat p.elemSize).toNat = p.elemSize := by
    rw [UInt32.toNat_ofNat']
    exact Nat.mod_eq_of_lt (by have := hp.elemSize; omega)
  have hc : (UInt32.ofNat p.count).toNat = p.count := by
    rw [UInt32.toNat_ofNat']
    exact Nat.mod_eq_of_lt hp.count
  have hslice := hat.slice_eq
  rw [hp.length] at hslice
  simp only [sectionAt, ho, he, hc]
  rw [run_bind (run_guard (by rw [ho, he, hc, Nat.mod_eq_of_lt (by omega)]; exact hoff) _ _)]
  rw [if_neg (by omega), hslice]
  rw [run_bind (show (Proc.lift (.ok p.data) : Load Bytes) sa = .ok (.ok p.data, sa) from rfl)]
  rw [run_bind (run_guard (by rw [if_neg hne]) _ _)]
  rfl

end Load

/-- What the size of a section depends on. -/
structure SameShape (st s : PartitionState) : Prop where
  custody : st.custody.length = s.custody.length
  accounts : st.accounts.length = s.accounts.length
  instruments : st.instruments.length = s.instruments.length
  trades : st.trades.length = s.trades.length
  exceptionCount : st.exceptionCount = s.exceptionCount
  cap : st.cap = s.cap
  exceptions : st.exceptions.length = s.exceptions.length

/-- A section whose size is decided by the counts, and whose copy keeps them. -/
structure StateSection.Regular (s : PartitionState) (sec : StateSection) : Prop where
  count : ∀ st, SameShape st s → sec.count st = sec.count s
  shape : ∀ st, SameShape st s → SameShape (sec.fill (sec.data s) st) s
  nil : ∀ st, SameShape st s → sec.elemSize * sec.count s = 0 → sec.fill (sec.data s) st = st
  fits : (sec.part s).Fits

/-- The state after the sections of `s` were copied into it. -/
def fillAll (s : PartitionState) (secs : List StateSection) (st : PartitionState) :
    PartitionState :=
  secs.foldl (fun st sec => sec.fill (sec.data s) st) st

namespace Load

/-- A section found where its reference says fills its part of the state, from the data that it was
made of. -/
theorem loadSection_eq {s st : PartitionState} {sec : StateSection} (hreg : sec.Regular s)
    (hshape : SameShape st s) {off : ℕ} (hat : HoldsAt image off (sec.data s))
    (hoff : off + sec.elemSize * sec.count s ≤ image.length) (hlen : image.length < 2 ^ 64) (k : ℕ)
    (a : Arena) :
    loadSection image k sec ⟨UInt64.ofNat off, UInt32.ofNat sec.elemSize,
      UInt32.ofNat (sec.count s),
      if sec.elemSize * sec.count s = 0 then 0 else crc32c 0 (sec.data s)⟩ (st, a) =
        .ok (.ok ⟨⟩, (sec.fill (sec.data s) st, a)) := by
  have hp := hreg.fits
  have he : (UInt32.ofNat sec.elemSize).toNat = sec.elemSize := by
    rw [UInt32.toNat_ofNat']
    exact Nat.mod_eq_of_lt (by have := hp.elemSize; simp only [StateSection.part] at this; omega)
  have hc : (UInt32.ofNat (sec.count s)).toNat = sec.count s := by
    rw [UInt32.toNat_ofNat']
    exact Nat.mod_eq_of_lt hp.count
  have hcount := hreg.count st hshape
  simp only [loadSection]
  rw [run_bind (show (Proc.read fun sa => sec.count sa.1 : Load ℕ) (st, a) =
    .ok (.ok (sec.count s), (st, a)) by rw [← hcount]; rfl)]
  rw [run_bind (run_guard ⟨he, hc⟩ _ _), he, hc]
  by_cases hz : sec.elemSize * sec.count s = 0
  · rw [if_pos hz, hreg.nil st hshape hz]
    rfl
  · rw [if_neg hz]
    exact (run_bind (sectionAt_of_holdsAt hp hat hoff hlen hz _ _)).trans rfl

/-- By induction on the sections: each one is found behind those before it, and fills its part of
the state. -/
theorem loadSections_eq {s : PartitionState} (hlen : image.length < 2 ^ 64) (a : Arena) :
    ∀ (secs : List StateSection) (off k : ℕ) {st : PartitionState},
      (∀ sec ∈ secs, sec.Regular s) → SameShape st s → 8 ∣ off →
      HoldsAt image off (sectionBytes (secs.map (·.part s))) →
      off + (sectionBytes (secs.map (·.part s))).length ≤ image.length →
      loadSections image k secs (refsFrom off (secs.map (·.part s))) (st, a) =
          .ok (.ok ⟨⟩, (fillAll s secs st, a)) ∧ SameShape (fillAll s secs st) s
  | [], off, k, st, _, hshape, _, _, _ => ⟨rfl, hshape⟩
  | sec :: secs, off, k, st, hreg, hshape, hdvd, hat, hle => by
    have hsec := hreg sec (by simp)
    have hfits := hsec.fits
    have hcons : sectionBytes ((sec :: secs).map (·.part s)) =
        (sec.data s ++ List.replicate (alinha8 (sec.elemSize * sec.count s) -
          (sec.data s).length) 0) ++ sectionBytes (secs.map (·.part s)) := rfl
    have hbytes := hfits.length_bytes
    simp only [StateSection.part] at hbytes
    rw [hcons] at hat hle
    rw [List.length_append, hbytes] at hle
    have hal := le_alinha8 (sec.elemSize * sec.count s)
    have hright := hat.right
    rw [hbytes] at hright
    have hnext := alinha8_add (n := sec.elemSize * sec.count s) hdvd
    obtain ⟨h1, h2⟩ := loadSections_eq hlen a secs (alinha8 (off + sec.elemSize * sec.count s))
      (k + 1) (fun q hq => hreg q (by simp [hq])) (hsec.shape st hshape) (dvd_alinha8 _)
        (by rw [hnext]; exact hright)
      (by rw [hnext]; omega)
    refine ⟨?_, h2⟩
    exact (run_bind (loadSection_eq hsec hshape hat.left.left (by omega) hlen k a)).trans h1

end Load

/-! ### The columns of a sound state -/

/-- The elements of a row make up the row. -/
structure Column.Whole {ρ : Type} (c : Column ρ) : Prop where
  size : c.field.size = c.elemSize * c.perRow
  elemSize : 0 < c.elemSize ∧ c.elemSize ≤ 32
  perRow : 0 < c.perRow ∧ c.perRow ≤ 3

theorem whole_custodyColumns : ∀ c ∈ custodyColumns, c.Whole := by
  simp only [custodyColumns, List.forall_mem_cons, List.not_mem_nil, false_implies, implies_true,
    and_true]
  refine ⟨?_, ?_, ?_, ?_, ?_, ?_, ?_, ?_, ?_, ?_, ?_⟩ <;>
    exact ⟨by decide, by decide, by decide⟩

theorem whole_accountColumns : ∀ c ∈ accountColumns, c.Whole := by
  simp only [accountColumns, List.forall_mem_cons, List.not_mem_nil, false_implies, implies_true,
    and_true]
  refine ⟨?_, ?_, ?_, ?_, ?_, ?_⟩ <;> exact ⟨by decide, by decide, by decide⟩

theorem whole_instrumentColumns : ∀ c ∈ instrumentColumns, c.Whole ∧ c.perRow = 1 := by
  simp only [instrumentColumns, List.forall_mem_cons, List.not_mem_nil, false_implies,
    implies_true, and_true]
  refine ⟨?_, ?_, ?_, ?_, ?_, ?_, ?_, ?_, ?_⟩ <;>
    exact ⟨by decide, by decide, by decide⟩

theorem whole_tradeColumns : ∀ c ∈ tradeColumns, c.Whole ∧ c.perRow = 1 := by
  simp only [tradeColumns, List.forall_mem_cons, List.not_mem_nil, false_implies, implies_true,
    and_true]
  refine ⟨?_, ?_, ?_, ?_, ?_, ?_, ?_, ?_, ?_, ?_, ?_⟩ <;>
    exact ⟨by decide, by decide, by decide⟩

section Table

variable {ρ : Type} {get : PartitionState → List ρ}
  {set : List ρ → PartitionState → PartitionState} {s : PartitionState}

/-- The section of a column is regular, for every table whose rows the column reads and writes. -/
theorem regular_tableSection {c : Column ρ} (hc : c.Whole)
    (hget : ∀ st, SameShape st s → (get st).length = (get s).length)
    (hset : ∀ st rows, SameShape st s → rows.length = (get s).length → SameShape (set rows st) s)
    (hself : ∀ st, set (get st) st = st) (hcount : c.perRow * (get s).length < 2 ^ 32) :
    (tableSection get set c).Regular s where
  count st h := by simp only [tableSection, hget st h]
  shape st h := hset st _ h ((length_decodeColumn _ _ _).trans (hget st h))
  nil st h hz := by
    have hlen : (get s).length = 0 := by
      have h1 := hc.elemSize.1
      have h2 := hc.perRow.1
      simp only [tableSection, Nat.mul_eq_zero] at hz
      omega
    have hnil : get st = [] := List.length_eq_zero_iff.mp ((hget st h).trans hlen)
    change set (decodeColumn c.field (get st) _) st = st
    rw [hnil, decodeColumn, ← hnil]
    exact hself st
  fits := by
    refine ⟨?_, hc.elemSize.2, hcount⟩
    simp only [StateSection.part, tableSection, length_encodeColumn, hc.size, Nat.mul_assoc]

/-- Copying all the columns of a table that loses nothing copies the table. -/
theorem fillAll_table (get : PartitionState → List ρ)
    (set : List ρ → PartitionState → PartitionState) {cols : List (Column ρ)}
    (hgs : ∀ rows st, get (set rows st) = rows)
    (hss : ∀ rows rows' st, set rows (set rows' st) = set rows st)
    (hself : ∀ st, set (get st) st = st)
    (hcopy : ∀ r ∈ get s, ∀ r₀, copyFields (cols.map Column.field) r r₀ = r)
    {st : PartitionState} (hlen : (get st).length = (get s).length) :
    fillAll s (cols.map (tableSection get set)) st = set (get s) st := by
  have hfold : ∀ (cs : List (Column ρ)) st, fillAll s (cs.map (tableSection get set)) st =
      set ((cs.map Column.field).foldl
        (fun acc f => decodeColumn f acc (encodeColumn f (get s))) (get st)) st := by
    intro cs
    induction cs with
    | nil => exact fun st => (hself st).symm
    | cons c cs ih =>
      intro st
      rw [List.map_cons, fillAll, List.foldl_cons]
      refine (ih _).trans ?_
      simp only [tableSection, hgs, hss, List.map_cons, List.foldl_cons]
  rw [hfold, foldl_decodeColumn_eq hlen hcopy]

end Table

/-- The state with the columns of another. -/
def withColumns (s st : PartitionState) : PartitionState :=
  { st with
    custody := s.custody
    accounts := s.accounts
    instruments := s.instruments
    trades := s.trades
    exceptions := s.exceptions.take (keptExceptions s) ++ st.exceptions.drop (keptExceptions s) }

/-- The exception records read back as they were. -/
theorem decode_exceptions (xs ys : List ExceptionRecord) (h : ys.length = xs.length) :
    decodeColumn exceptionField ys (encodeColumn exceptionField xs) = xs := by
  rw [decodeColumn_encodeColumn exceptionField xs ys h]
  refine List.ext_getElem (by simp [h]) fun i _ _ => ?_
  rw [List.getElem_zipWith]
  exact dec_exception _ _

/-- The section of the exceptions fills as many slots of the ring as the image keeps. -/
theorem fillAll_exceptionSection {s st : PartitionState}
    (hkept : keptExceptions st = keptExceptions s)
    (hlen : st.exceptions.length = s.exceptions.length) :
    fillAll s [exceptionSection] st = { st with
      exceptions := s.exceptions.take (keptExceptions s) ++
        st.exceptions.drop (keptExceptions s) } := by
  have hdec := decode_exceptions (s.exceptions.take (keptExceptions s))
    (st.exceptions.take (keptExceptions s))
    (by rw [List.length_take, List.length_take, hlen])
  simp only [fillAll, List.foldl_cons, List.foldl_nil, exceptionSection, hkept, hdec]

/-- All the columns together fill the rows of the tables. -/
theorem fillAll_columnSections {s st : PartitionState} (hs : s.Sound) (h : SameShape st s) :
    fillAll s columnSections st = withColumns s st := by
  have happ : ∀ (as bs : List StateSection) st, fillAll s (as ++ bs) st =
      fillAll s bs (fillAll s as st) := fun as bs st => List.foldl_append
  rw [columnSections, happ, happ, happ, happ]
  have h1 : fillAll s custodySections st = { st with custody := s.custody } :=
    fillAll_table (·.custody) (fun rows s => { s with custody := rows }) (fun _ _ => rfl)
      (fun _ _ _ => rfl) (fun _ => rfl) (fun r hr => copy_custody (hs.custodyRows r hr)) h.custody
  have h2 : ∀ st : PartitionState, st.accounts.length = s.accounts.length →
      fillAll s accountSections st = { st with accounts := s.accounts } := fun st hst =>
    fillAll_table (·.accounts) (fun rows s => { s with accounts := rows }) (fun _ _ => rfl)
      (fun _ _ _ => rfl) (fun _ => rfl) (fun r hr => copy_account (hs.accountRows r hr)) hst
  have h3 : ∀ st : PartitionState, st.instruments.length = s.instruments.length →
      fillAll s instrumentSections st = { st with instruments := s.instruments } := fun st hst =>
    fillAll_table (·.instruments) (fun rows s => { s with instruments := rows }) (fun _ _ => rfl)
      (fun _ _ _ => rfl) (fun _ => rfl) (fun r _ => copy_instrument r) hst
  have h4 : ∀ st : PartitionState, st.trades.length = s.trades.length →
      fillAll s tradeSections st = { st with trades := s.trades } := fun st hst =>
    fillAll_table (·.trades) (fun rows s => { s with trades := rows }) (fun _ _ => rfl)
      (fun _ _ _ => rfl) (fun _ => rfl) (fun r hr => copy_trade (hs.tradeRows r hr)) hst
  rw [h1, h2 _ (by exact h.accounts), h3 _ (by exact h.instruments), h4 _ (by exact h.trades)]
  refine fillAll_exceptionSection ?_ (by exact h.exceptions)
  simp only [keptExceptions, h.exceptionCount, h.cap]

/-- Every column section of a sound state is regular. -/
theorem regular_columnSections {s : PartitionState} (hs : s.Sound) :
    ∀ sec ∈ columnSections, sec.Regular s := by
  obtain ⟨hcust, hacc, hinst, htrade⟩ := hs.lengths
  have hcols := hs.slotColumns
  have hi32 := s.cap.instruments.toNat_lt
  have ht32 := s.cap.trades.toNat_lt
  intro sec hsec
  simp only [columnSections, List.mem_append, custodySections, accountSections,
    instrumentSections, tradeSections, List.mem_map, List.mem_singleton] at hsec
  obtain ⟨c, hc, rfl⟩ | ⟨c, hc, rfl⟩ | ⟨c, hc, rfl⟩ | ⟨c, hc, rfl⟩ | rfl := hsec
  · have hw := whole_custodyColumns c hc
    have hle : c.perRow * s.custody.length ≤ 3 * s.custody.length :=
      Nat.mul_le_mul_right _ hw.perRow.2
    exact regular_tableSection hw (fun _ h => h.custody) (fun _ _ h hr => { h with custody := hr })
      (fun _ => rfl) (by omega)
  · have hw := whole_accountColumns c hc
    have hle : c.perRow * s.accounts.length ≤ 3 * s.accounts.length :=
      Nat.mul_le_mul_right _ hw.perRow.2
    exact regular_tableSection hw (fun _ h => h.accounts)
      (fun _ _ h hr => { h with accounts := hr }) (fun _ => rfl) (by omega)
  · obtain ⟨hw, hone⟩ := whole_instrumentColumns c hc
    exact regular_tableSection hw (fun _ h => h.instruments)
      (fun _ _ h hr => { h with instruments := hr }) (fun _ => rfl) (by rw [hone]; omega)
  · obtain ⟨hw, hone⟩ := whole_tradeColumns c hc
    exact regular_tableSection hw (fun _ h => h.trades)
      (fun _ _ h hr => { h with trades := hr }) (fun _ => rfl) (by rw [hone]; omega)
  -- the exceptions: their section has the rows kept, which depend on the counts alone
  · have hkept : ∀ st, SameShape st s → keptExceptions st = keptExceptions s := fun st h => by
      rw [keptExceptions, keptExceptions, h.exceptionCount, h.cap]
    have hle : keptExceptions s ≤ s.exceptions.length := by
      rw [hs.exceptions]
      exact Nat.min_le_right _ _
    have he32 := s.cap.tables.exceptions.toNat_lt
    have hexc := hs.exceptions
    refine ⟨hkept, fun st h => { h with exceptions := ?_ }, fun st h hz => ?_, ?_⟩
    · simp only [exceptionSection, List.length_append, length_decodeColumn, List.length_take,
        List.length_drop, hkept st h, h.exceptions]
      omega
    · have h0 : keptExceptions s = 0 := by
        simp only [exceptionSection] at hz
        omega
      simp only [exceptionSection, hkept st h, h0, List.take_zero, decodeColumn, List.drop_zero,
        List.nil_append]
    · refine ⟨?_, le_rfl, ?_⟩
      · simp only [StateSection.part, exceptionSection, length_encodeColumn, List.length_take,
          Nat.min_eq_left hle]
        rfl
      · simp only [StateSection.part, exceptionSection]
        omega

/-! ### The idempotency sets -/

section Sets

variable {n : ℕ}

theorem length_keyRecord (m : UInt64 × ℕ × Bool) : (keyRecord m).length = kKeyRecordBytes := by
  simp [keyRecord, kKeyRecordBytes]

/-- A set has as many members as its size says. -/
theorem length_members {t : TwoGenSet} (h : t.Sound n) : t.members.length = t.size := by
  simp [TwoGenSet.members, TwoGenSet.size, h.gen0.wf.counted, h.gen1.wf.counted]

/-- The section of a set has a record for each member. -/
theorem fits_setPart {t : TwoGenSet} (h : t.Sound n) : (setPart t).Fits where
  length := by
    simp only [setPart, List.length_flatMap, length_keyRecord, List.map_const', List.sum_replicate,
      smul_eq_mul, length_members h, Nat.mul_comm]
  elemSize := by
    simp [setPart, kKeyRecordBytes]
  count := by
    have h0 := h.gen0.size
    have h1 := h.gen1.size
    have hs0 := slotCount_le h.gen0.slots
    have hs1 := slotCount_le h.gen1.slots
    simp only [setPart, TwoGenSet.size, loadLimit] at *
    omega

/-- The key records of a section read back as the members that they were made of. -/
theorem keyRecords_flatMap {ms : List (UInt64 × ℕ × Bool)} (h : ∀ m ∈ ms, m.2.1 < 2 ^ 32) :
    Load.keyRecords (ms.flatMap keyRecord) ms.length = ms := by
  refine List.ext_getElem (by simp [Load.keyRecords]) fun j hj hj' => ?_
  have hat : HoldsAt (ms.flatMap keyRecord) (16 * j) (keyRecord ms[j]) := by
    rw [← slice_flatMap keyRecord length_keyRecord ms j hj']
    exact holdsAt_slice _ _ _
  have s0 := hat.left.slice_eq
  have s1 := hat.right.left.slice_eq
  have s2 := hat.right.right.slice_eq
  simp only [length_encU64, length_le] at s0 s1 s2
  have hrow := h ms[j] (List.getElem_mem hj')
  have hgen : ∀ g : Bool, decide (ofLe (le 4 (if g = true then 1 else 0)) % 2 = 1) = g := by
    decide
  simp only [Load.keyRecords, List.getElem_map, List.getElem_range, s0, s1, s2, decU64_encU64,
    ofLe_le4 hrow, hgen]

@[simp]
theorem gen_setGen (t : TwoGenSet) (g : Bool) (u : PairIndex) : (t.setGen g u).gen g = u := by
  cases g <;> rfl

@[simp]
theorem setGen_setGen (t : TwoGenSet) (g : Bool) (u v : PairIndex) :
    (t.setGen g u).setGen g v = t.setGen g v := by
  cases g <;> rfl

@[simp]
theorem setGen_gen (t : TwoGenSet) (g : Bool) : t.setGen g (t.gen g) = t := by
  cases g <;> rfl

/-- New pairs all go into their generation while there is room. -/
theorem insertMembers_gen (g : Bool) : ∀ (es : List ((UInt64 × ℕ) × Unit)) {t : TwoGenSet},
    OpenTable.WF PairIndex.home (t.gen g) →
    loadLimit (t.gen g).slots.length < (t.gen g).slots.length →
    ((es ++ (t.gen g).entries).map Prod.fst).Nodup →
    (t.gen g).size + es.length ≤ loadLimit (t.gen g).slots.length →
    ∃ u : PairIndex, OpenTable.WF PairIndex.home u ∧
      u.slots.length = (t.gen g).slots.length ∧ u.entries.Perm (es ++ (t.gen g).entries) ∧
      ∀ ms, Load.insertMembers t (es.map (fun e => (e.1.1, e.1.2, g)) ++ ms) =
        Load.insertMembers (t.setGen g u) ms
  | [], t, hwf, _, _, _ => ⟨t.gen g, hwf, rfl, .rfl, fun ms => by simp⟩
  | ((hi, lo), ()) :: es, t, hwf, hroom, hnd, hle => by
    have hnew : OpenTable.find PairIndex.home (t.gen g) (hi, lo) = none := by
      rcases hf : OpenTable.find PairIndex.home (t.gen g) (hi, lo) with _ | v
      · rfl
      · have hmem := (OpenTable.find_eq_some hwf).mp hf
        simp only [List.cons_append, List.map_cons, List.nodup_cons] at hnd
        exact absurd (List.mem_map_of_mem (List.mem_append_right es hmem)) hnd.1
    obtain ⟨u₁, hins, hwf₁, hsize₁, hslots₁, hperm₁⟩ :=
      OpenTable.insert_added hwf hroom (by simp at hle; omega) hnew ()
    have hperm : (es ++ u₁.entries).Perm (((hi, lo), ()) :: es ++ (t.gen g).entries) :=
      (hperm₁.append_left es).trans List.perm_middle
    obtain ⟨u, hwf', hslots, hp, hrest⟩ := insertMembers_gen g es (t := t.setGen g u₁)
      (by rw [gen_setGen]; exact hwf₁) (by rw [gen_setGen, hslots₁]; exact hroom)
      (by rw [gen_setGen]; exact (hperm.map Prod.fst).nodup_iff.mpr hnd)
      (by rw [gen_setGen, hslots₁, hsize₁]; simp at hle; omega)
    rw [gen_setGen] at hslots hp
    refine ⟨u, hwf', hslots.trans hslots₁, hp.trans hperm, fun ms => ?_⟩
    have hstep : t.insertInto g hi lo = (true, t.setGen g u₁) := by
      simp only [TwoGenSet.insertInto, PairIndex.insert, hins]
    rw [List.map_cons, List.cons_append, Load.insertMembers]
    simp only [hstep, hrest, setGen_setGen]

/-- The members of a set, inserted into one that is empty, make up the set. -/
theorem insertMembers_members {t u : TwoGenSet} (h : t.Sound n) {slots : ℕ}
    (hslots : slotCount n = some slots) (h0 : u.gen0 = OpenTable.empty slots)
    (h1 : u.gen1 = OpenTable.empty slots) (hcur : t.current = u.current)
    (hrot : t.rotation = u.rotation) :
    ∃ u', Load.insertMembers u t.members = (true, u') ∧ t.Equiv u' := by
  have hlim := (slotCount_eq_some hslots).2.2
  have hlen : ∀ g, (t.gen g).slots.length = slots := fun g =>
    Option.some.inj ((h.gen g).slots.symm.trans hslots)
  -- the members of one generation go into the empty table in slot order
  have hfill : ∀ g (w : TwoGenSet), w.gen g = OpenTable.empty slots → ∃ v : PairIndex,
      OpenTable.Equiv PairIndex.home (t.gen g) v ∧
      ∀ ms, Load.insertMembers w ((t.gen g).entries.map (fun e => (e.1.1, e.1.2, g)) ++ ms) =
        Load.insertMembers (w.setGen g v) ms := by
    intro g w hw
    have hsize := (h.gen g).size
    rw [(h.gen g).wf.counted, hlen g] at hsize
    obtain ⟨v, hwf, hsl, hp, hrest⟩ := insertMembers_gen g (t.gen g).entries (t := w)
      (by rw [hw]; exact OpenTable.wf_empty _) (by rw [hw]; simpa [OpenTable.empty] using hlim)
      (by rw [hw]; simpa using OpenTable.nodup_entries (h.gen g).wf)
      (by rw [hw]; simpa [OpenTable.empty] using hsize)
    rw [hw, OpenTable.entries_empty, List.append_nil] at hp
    rw [hw] at hsl
    refine ⟨v, .of_perm (h.gen g).wf hwf ?_ hp.symm, hrest⟩
    rw [hlen g, hsl]
    simp [OpenTable.empty]
  -- the second generation is filled after the first, which it leaves
  obtain ⟨v0, heq0, hv0⟩ := hfill false u h0
  obtain ⟨v1, heq1, hv1⟩ := hfill true (u.setGen false v0) h1
  have hmem : t.members = (t.gen false).entries.map (fun e => (e.1.1, e.1.2, false)) ++
      ((t.gen true).entries.map (fun e => (e.1.1, e.1.2, true)) ++ []) := by
    rw [List.append_nil]
    rfl
  refine ⟨(u.setGen false v0).setGen true v1, ?_, heq0, heq1, hcur, hrot, ?_, ?_⟩
  · rw [hmem, hv0, hv1]
    rfl
  · rw [show t.gen0 = t.gen false from rfl, hlen]
    exact hlim
  · rw [show t.gen1 = t.gen true from rfl, hlen]
    exact hlim

end Sets

/-- The members of a set, with row numbers that fit. -/
theorem rows_members {n : ℕ} {t : TwoGenSet} (h : t.Sound n) :
    ∀ m ∈ t.members, m.2.1 < 2 ^ 32 := by
  intro m hm
  simp only [TwoGenSet.members, List.mem_append, List.mem_map] at hm
  obtain ⟨e, he, rfl⟩ | ⟨e, he, rfl⟩ := hm
  · exact h.gen0.rows e he
  · exact h.gen1.rows e he

/-- The section of a set inserts its members, in the order in which the image has them. -/
theorem Load.loadSet_eq {n : ℕ} {t u : TwoGenSet} (h : t.Sound n) {off : ℕ}
    (hat : HoldsAt image off (setPart t).data) (hoff : off + 16 * t.size ≤ image.length)
    (hlen : image.length < 2 ^ 64) (get : PartitionState → TwoGenSet)
    (set : TwoGenSet → PartitionState → PartitionState) (hself : ∀ st, set (get st) st = st)
    (st : PartitionState) (hins : insertMembers (get st) t.members = (true, u)) (a : Arena) :
    loadSet image ⟨UInt64.ofNat off, UInt32.ofNat 16, UInt32.ofNat t.size,
      if 16 * t.size = 0 then 0 else crc32c 0 (setPart t).data⟩ get set (st, a) =
        .ok (.ok ⟨⟩, (set u st, a)) := by
  have hp := fits_setPart h
  have hc : (UInt32.ofNat t.size).toNat = t.size := by
    rw [UInt32.toNat_ofNat']
    exact Nat.mod_eq_of_lt hp.count
  have he : (UInt32.ofNat 16).toNat = 16 := rfl
  simp only [loadSet, hc, he]
  by_cases hz : 16 * t.size = 0
  · have hnil : t.members = [] := by
      rw [← List.length_eq_zero_iff, length_members h]
      omega
    rw [hnil] at hins
    obtain rfl : get st = u := (Prod.mk.inj hins).2
    rw [if_pos hz, hself]
    rfl
  · have hkeys : keyRecords (setPart t).data t.size = t.members := by
      rw [← length_members h]
      exact keyRecords_flatMap (rows_members h)
    rw [if_neg hz]
    refine (run_bind (run_guard he _ _)).trans ?_
    refine (run_bind (sectionAt_of_holdsAt hp hat hoff hlen hz _ _)).trans ?_
    rw [hkeys]
    refine (run_bind (a := true) ?_).trans (run_guard rfl _ _)
    simp only [Proc.act, hins]

/-! ### The whole image -/

section Image

variable {s : PartitionState}

/-- Every section of a sound state has the size that its reference names. -/
theorem fits_parts (hs : s.Sound) : ∀ p ∈ parts s, p.Fits := by
  intro p hp
  simp only [parts, List.mem_append, List.mem_map, List.mem_cons, List.not_mem_nil, or_false] at hp
  obtain ⟨sec, hsec, rfl⟩ | rfl | rfl := hp
  · exact (regular_columnSections hs sec hsec).fits
  · exact fits_setPart hs.actions
  · exact fits_setPart hs.income

/-- The image of a state. -/
def imageOf (s : PartitionState) : Bytes := (headerOf s).encode ++ sectionBytes (parts s)

theorem length_parts (s : PartitionState) : (parts s).length = kStateSections := rfl

/-- An image is as long as `stateImageBytes` says. -/
theorem length_imageOf (hs : s.Sound) : (imageOf s).length = stateImageBytes s := by
  rw [imageOf, List.length_append, StateImageHeader.length_encode, stateImageBytes,
    endFrom_eq (by decide) (fits_parts hs)]

/-- The size of an image does not wrap around. -/
theorem stateImageBytes_lt (hs : s.Sound) : stateImageBytes s < 2 ^ 64 := by
  have h := length_sectionBytes_le (fits_parts hs)
  rw [length_parts] at h
  rw [stateImageBytes, endFrom_eq (by decide) (fits_parts hs)]
  simp only [kStateImageHeaderBytes, kStateSections] at *
  omega

/-- The header of an image is accepted, and is the one that was written. -/
theorem loadHeader_imageOf (hs : s.Sound) : loadHeader (imageOf s) = .ok (headerOf s) := by
  have hlen := length_imageOf hs
  have hlt := stateImageBytes_lt hs
  have hle : kStateImageHeaderBytes ≤ (imageOf s).length := by
    rw [imageOf, List.length_append, StateImageHeader.length_encode]
    omega
  have hbytes : (headerOf s).imageBytes.toNat = stateImageBytes s := by
    rw [headerOf, UInt64.toNat_ofNat']
    exact Nat.mod_eq_of_lt hlt
  have hdec : StateImageHeader.decode (imageOf s) = headerOf s :=
    StateImageHeader.decode_encode _ _
  have hcrc : crcDoCabecalho (imageOf s) = decU32 (slice (imageOf s) kHeaderCrcOffset 4) :=
    StateImageHeader.crc_encode _ _
  rw [loadHeader, hdec, if_neg (by omega), if_neg (by simp [headerOf]), if_neg (by simp [headerOf]),
    if_neg (by simpa using hcrc), if_neg (by omega)]

/-- The references of the header are the offsets and sizes of the sections. -/
theorem sections_headerOf (s : PartitionState) :
    (headerOf s).sections.toList = refsFrom kStateImageHeaderBytes (parts s) := by
  have hlen := length_refsFrom kStateImageHeaderBytes (parts s)
  rw [length_parts] at hlen
  refine List.ext_getElem (by simp [hlen, kStateSections]) fun k hk hk' => ?_
  simp [headerOf, List.getD_eq_getElem?_getD, List.getElem?_eq_getElem hk']

/-- The state over which the columns are copied. -/
def counted (s target : PartitionState) (slots : ℕ × ℕ × ℕ × ℕ × ℕ) : PartitionState :=
  Load.setCounts (headerOf s) { target.initialised s.id s.cap slots with cap := s.cap }

/-- The counts of the header give the tables their rows, still cleared. -/
theorem setCounts_initialised (hs : s.Sound) (target : PartitionState)
    (slots : ℕ × ℕ × ℕ × ℕ × ℕ) :
    Load.setCounts (headerOf s) (target.initialised s.id s.cap slots) = counted s target slots := by
  obtain ⟨na, np, ni, nt, ng⟩ := slots
  rw [counted, ← hs.forTables]
  rfl

/-- The number of rows of a table fits in 32 bits. -/
theorem toNat_ofNat_le {n : ℕ} {cap : UInt32} (h : n ≤ cap.toNat) : (UInt32.ofNat n).toNat = n := by
  have := cap.toNat_lt
  rw [UInt32.toNat_ofNat']
  exact Nat.mod_eq_of_lt (by omega)

/-- The rows still cleared are as many as the image has. -/
theorem sameShape_counted (hs : s.Sound) (target : PartitionState)
    (slots : ℕ × ℕ × ℕ × ℕ × ℕ) : SameShape (counted s target slots) s := by
  obtain ⟨hc, ha, hi, ht⟩ := hs.lengths
  refine ⟨?_, ?_, ?_, ?_, rfl, rfl, ?_⟩
  · simp [counted, Load.setCounts, headerOf, -UInt32.toNat_ofNat', toNat_ofNat_le hc]
  · simp [counted, Load.setCounts, headerOf, -UInt32.toNat_ofNat', toNat_ofNat_le ha]
  · simp [counted, Load.setCounts, headerOf, -UInt32.toNat_ofNat', toNat_ofNat_le hi]
  · simp [counted, Load.setCounts, headerOf, -UInt32.toNat_ofNat', toNat_ofNat_le ht]
  · simp [counted, Load.setCounts, initialised, hs.exceptions, hs.table_exceptions]

/-- The counts of an image do not exceed its capacities. -/
theorem countsFit_headerOf (hs : s.Sound) : Load.countsFit (headerOf s) = true := by
  obtain ⟨hc, ha, hi, ht⟩ := hs.lengths
  simp only [Load.countsFit, headerOf, decide_eq_true_eq, UInt32.le_iff_toNat_le,
    toNat_ofNat_le hc, toNat_ofNat_le ha, toNat_ofNat_le hi, toNat_ofNat_le ht]
  exact ⟨hc, ha, hi, ht⟩

/-- The rebuilt indexes answer as those of the state that was saved. -/
theorem exists_insertKeys {cap : UInt32} {keys : List UInt64} {t : DenseIndex}
    (h : TableSound cap keys t) {n : ℕ} (hn : slotCount cap.toNat = some n) :
    ∃ t', insertKeys (OpenTable.empty n) 0 keys = (true, t') ∧ t.Same t' := by
  have hs := slotCount_eq_some hn
  have hle := h.le
  obtain ⟨t', hins, hidx, hslots, -⟩ :=
    DenseIndex.indexes_insertKeys hs.2.2 h.index.nodup (by omega)
  have hlen : t.slots.length = n := Option.some.inj (h.slots.symm.trans hn)
  exact ⟨t', hins, h.index.equiv hidx (by rw [hlen, hslots]), h.index.room⟩

/-- Where the sections of the state stand in its image. -/
theorem holdsAt_sections (s : PartitionState) :
    HoldsAt (imageOf s) kStateImageHeaderBytes (sectionBytes (parts s)) := by
  have hat : HoldsAt (imageOf s) 0 ((headerOf s).encode ++ sectionBytes (parts s)) :=
    List.prefix_rfl
  have hright := hat.right
  rwa [StateImageHeader.length_encode, Nat.zero_add] at hright

theorem sectionBytes_append (ps qs : List Part) :
    sectionBytes (ps ++ qs) = sectionBytes ps ++ sectionBytes qs := List.flatMap_append

/-- The indexes made anew over the keys of the rows are those of the state of the image. -/
theorem rebuildIndexes_counted (st : PartitionState) (hs : s.Sound) {na np ni nt ng : ℕ}
    (hslots : indexSlots s.cap = some (na, np, ni, nt, ng))
    (hkeys : st.accountKeys = s.accountKeys ∧ st.positionKeys = s.positionKeys ∧
      st.instrumentKeys = s.instrumentKeys ∧ st.tradeKeys = s.tradeKeys)
    (ha : st.accountIndex = OpenTable.empty na) (hp : st.positionIndex = OpenTable.empty np)
    (hi : st.instrumentIndex = OpenTable.empty ni) (ht : st.tradeIndex = OpenTable.empty nt) :
    ∃ ta tp ti tt, st.rebuildIndexes = (true, { st with
        accountIndex := ta, positionIndex := tp, instrumentIndex := ti, tradeIndex := tt }) ∧
      s.accountIndex.Same ta ∧ s.positionIndex.Same tp ∧ s.instrumentIndex.Same ti ∧
      s.tradeIndex.Same tt := by
  obtain ⟨hna, hnp, hni, hnt, -⟩ := indexSlots_eq_some.mp hslots
  obtain ⟨ta, hta, hsa⟩ := exists_insertKeys hs.accounts hna
  obtain ⟨tp, htp, hsp⟩ := exists_insertKeys hs.positions hnp
  obtain ⟨ti, hti, hsi⟩ := exists_insertKeys hs.instruments hni
  obtain ⟨tt, htt, hst⟩ := exists_insertKeys hs.trades hnt
  refine ⟨ta, tp, ti, tt, ?_, hsa, hsp, hsi, hst⟩
  simp only [rebuildIndexes, hkeys, ha, hp, hi, ht, hta, htp, hti, htt]

/-- The reference to a set. -/
def setRef (t : TwoGenSet) (off : ℕ) : StateSectionRef :=
  ⟨UInt64.ofNat off, UInt32.ofNat 16, UInt32.ofNat t.size,
    if 16 * t.size = 0 then 0 else crc32c 0 (setPart t).data⟩

/-- The columns of the image, then the two sets, where their references say. -/
structure ImageLayout (s : PartitionState) (off₁ off₂ : ℕ) : Prop where
  columnRefs : (headerOf s).sections.toList.take 38 =
    refsFrom kStateImageHeaderBytes (columnSections.map (·.part s))
  columns : HoldsAt (imageOf s) kStateImageHeaderBytes
    (sectionBytes (columnSections.map (·.part s)))
  columnsLe : kStateImageHeaderBytes + (sectionBytes (columnSections.map (·.part s))).length ≤
    (imageOf s).length
  actionsRef : (headerOf s).sections.get 38 = setRef s.appliedActions off₁
  actions : HoldsAt (imageOf s) off₁ (setPart s.appliedActions).data
  actionsLe : off₁ + 16 * s.appliedActions.size ≤ (imageOf s).length
  incomeRef : (headerOf s).sections.get 39 = setRef s.appliedIncome off₂
  income : HoldsAt (imageOf s) off₂ (setPart s.appliedIncome).data
  incomeLe : off₂ + 16 * s.appliedIncome.size ≤ (imageOf s).length

/-- The image is made of the header, the columns and the two sets, one after the other. -/
theorem exists_imageLayout (hs : s.Sound) : ∃ off₁ off₂, ImageLayout s off₁ off₂ := by
  set cols := columnSections.map (·.part s) with hcols
  have hcolFits : ∀ p ∈ cols, p.Fits := fun p hp => fits_parts hs p (List.mem_append_left _ hp)
  have hparts : parts s = cols ++ [setPart s.appliedActions, setPart s.appliedIncome] := rfl
  have hend : endFrom kStateImageHeaderBytes cols =
      kStateImageHeaderBytes + (sectionBytes cols).length := endFrom_eq (by decide) hcolFits
  set off₁ := endFrom kStateImageHeaderBytes cols with hoff₁
  have hlen : (refsFrom kStateImageHeaderBytes cols).length = 38 := length_refsFrom _ _
  have hrefs : (headerOf s).sections.toList = refsFrom kStateImageHeaderBytes cols ++
      [setRef s.appliedActions off₁,
        setRef s.appliedIncome (alinha8 (off₁ + 16 * s.appliedActions.size))] := by
    rw [sections_headerOf, hparts, refsFrom_append]
    rfl
  have hget : ∀ (k : Fin 40) (ref : StateSectionRef),
      (headerOf s).sections.toList[k.val]? = some ref → (headerOf s).sections.get k = ref := by
    intro k ref h
    simpa [Vector.get_eq_getElem] using h
  -- the sets follow the columns, each padded to eight bytes
  have hat := holdsAt_sections s
  rw [hparts, sectionBytes_append] at hat
  have hset := hat.right
  rw [← hend, sectionBytes, List.flatMap_cons, List.flatMap_cons, List.flatMap_nil,
    List.append_nil] at hset
  have hfitA := fits_setPart hs.actions
  have hfitI := fits_setPart hs.income
  have hlenA := hfitA.length_bytes
  have hlenI := hfitI.length_bytes
  have hdvd : 8 ∣ off₁ := dvd_endFrom cols (by decide)
  have hsetI := hset.right
  rw [hlenA, ← alinha8_add hdvd] at hsetI
  have htotal : (imageOf s).length = off₁ + (alinha8 (16 * s.appliedActions.size) +
      alinha8 (16 * s.appliedIncome.size)) := by
    have hpair : (sectionBytes [setPart s.appliedActions, setPart s.appliedIncome]).length =
        alinha8 (16 * s.appliedActions.size) + alinha8 (16 * s.appliedIncome.size) := by
      rw [sectionBytes, List.flatMap_cons, List.flatMap_cons, List.flatMap_nil, List.append_nil,
        List.length_append, hlenA, hlenI]
      rfl
    rw [imageOf, List.length_append, StateImageHeader.length_encode, hparts, sectionBytes_append,
      List.length_append, hpair, hend]
    omega
  have hleA := le_alinha8 (16 * s.appliedActions.size)
  have hleI := le_alinha8 (16 * s.appliedIncome.size)
  refine ⟨off₁, alinha8 (off₁ + 16 * s.appliedActions.size), ?_, hat.left, ?_, ?_, hset.left.left,
    ?_, ?_, hsetI.left, ?_⟩
  · rw [hrefs, List.take_left' hlen]
  · rw [← hcols, ← hend]
    omega
  · refine hget 38 _ ?_
    rw [hrefs, List.getElem?_append_right (by rw [hlen]; decide), hlen]
    rfl
  · omega
  · refine hget 39 _ ?_
    rw [hrefs, List.getElem?_append_right (by rw [hlen]; decide), hlen]
    rfl
  · rw [alinha8_add hdvd]
    omega

/-- The second set has the members of the first, inserted in their order into empty generations of
so many slots. -/
def Refilled (slots : ℕ) (a b : TwoGenSet) : Prop :=
  ∃ u : TwoGenSet, u.gen0 = OpenTable.empty slots ∧ u.gen1 = OpenTable.empty slots ∧
    Load.insertMembers u a.members = (true, b)

/-- Loading into any target whose arena has room for the capacities. -/
theorem loadBody_imageOf (hs : s.Sound) (target : PartitionState) {arena arena' : Arena}
    {slots : ℕ × ℕ × ℕ × ℕ × ℕ} (hslots : indexSlots s.cap = some slots)
    (halloc : arena.allocBlocks (initBlocks s.cap slots) = (true, arena'))
    (hover : arena'.overflowed = false) :
    ∃ t, Load.loadBody (imageOf s) (headerOf s) (target, arena) = .ok (.ok ⟨⟩, (t, arena')) ∧
      Agree s t ∧ Refilled slots.2.2.2.2 s.appliedActions t.appliedActions ∧
      Refilled slots.2.2.2.2 s.appliedIncome t.appliedIncome := by
  obtain ⟨na, np, ni, nt, ng⟩ := slots
  obtain ⟨-, -, -, -, hng⟩ := indexSlots_eq_some.mp hslots
  obtain ⟨off₁, off₂, hlay⟩ := exists_imageLayout hs
  have hlt : (imageOf s).length < 2 ^ 64 := by
    rw [length_imageOf hs]
    exact stateImageBytes_lt hs
  have hshape := sameShape_counted hs target (na, np, ni, nt, ng)
  have hinit : Load.loadInit (headerOf s) (target, arena) =
      .ok (.ok ⟨⟩, (target.initialised s.id s.cap (na, np, ni, nt, ng), arena')) := by
    have hok := init_of_alloc target s.id hs.slotColumns hslots halloc hover
    simp only [Load.loadInit, headerOf, hok]
    rfl
  -- the columns are those of the state, written over those of the target
  have hcols := (Load.loadSections_eq hlt arena' columnSections kStateImageHeaderBytes 0
    (regular_columnSections hs) hshape (by decide) hlay.columns hlay.columnsLe).1
  rw [fillAll_columnSections hs hshape, ← hlay.columnRefs] at hcols
  have hcurrent : ∀ b : Bool, decide ((if b = true then (1 : UInt32) else 0) &&& 1 = 1) = b := by
    decide
  set st := Load.setState (headerOf s)
    (withColumns s (counted s target (na, np, ni, nt, ng))) with hst
  -- each set starts empty, and the members go back into the generation they came from
  obtain ⟨ua, hua, hea⟩ := insertMembers_members (u := st.appliedActions) hs.actions hng rfl rfl
    (hcurrent _).symm rfl
  obtain ⟨ui, hui, hei⟩ := insertMembers_members (u := st.appliedIncome) hs.income hng rfl rfl
    (hcurrent _).symm rfl
  have hactions := Load.loadSet_eq hs.actions hlay.actions hlay.actionsLe hlt
    (·.appliedActions) (fun t s => { s with appliedActions := t })
    (fun _ => rfl) st hua arena'
  have hincome := Load.loadSet_eq hs.income hlay.income hlay.incomeLe hlt
    (·.appliedIncome) (fun t s => { s with appliedIncome := t })
    (fun _ => rfl) { st with appliedActions := ua } hui arena'
  -- the indexes are not in the image: they are rebuilt from the keys of the columns
  obtain ⟨ta, tp, ti, tt, hre, hsa, hsp, hsi, hst'⟩ := rebuildIndexes_counted
    (Load.setScalars (headerOf s) { st with appliedActions := ua, appliedIncome := ui }) hs hslots
    ⟨rfl, rfl, rfl, rfl⟩ rfl rfl rfl rfl
  have hkept : keptExceptions s ≤ s.exceptions.length := by
    rw [hs.exceptions]
    exact Nat.min_le_right _ _
  -- of the exceptions only the rows counted are stored, and the rest stays as it was
  have hexc : st.exceptions = s.exceptions.take (keptExceptions s) ++
      (counted s target (na, np, ni, nt, ng)).exceptions.drop (keptExceptions s) := rfl
  refine ⟨s.withCaches ⟨ta, tp, ti, tt, ua, ui, st.exceptions⟩, ?_, ⟨_, rfl, hsa, hsp, hsi, hst',
    hea, hei, ?_, hs.exceptions, ?_⟩, ⟨_, rfl, rfl, hua⟩, ⟨_, rfl, rfl, hui⟩⟩
  · refine (Load.run_bind hinit).trans ?_
    refine (Load.run_bind (show Load.modify _ _ = .ok (.ok ⟨⟩, (counted s target _, arena')) by
      rw [← setCounts_initialised hs]; rfl)).trans ?_
    refine (Load.run_bind (Load.run_guard (countsFit_headerOf hs) _ _)).trans ?_
    refine (Load.run_bind hcols).trans ?_
    refine (Load.run_bind (show Load.modify _ _ = .ok (.ok ⟨⟩, (st, arena')) from rfl)).trans ?_
    rw [hlay.actionsRef, hlay.incomeRef]
    refine (Load.run_bind hactions).trans ?_
    refine (Load.run_bind hincome).trans ?_
    refine (Load.run_bind (show Load.modify _ _ = .ok (.ok ⟨⟩, (Load.setScalars (headerOf s)
      { st with appliedActions := ua, appliedIncome := ui }, arena')) from rfl)).trans ?_
    refine (Load.run_bind (a := true) (by rw [Proc.act, hre])).trans ?_
    refine (Load.run_bind (Load.run_guard rfl _ _)).trans ?_
    exact Load.run_guard ⟨rfl, rfl⟩ _ _
  · rw [hexc, List.take_left' (by simpa using hkept)]
  · rw [hexc, List.length_append, List.length_take, List.length_drop, hshape.exceptions]
    have := hs.exceptions
    omega

/-- An image whose header and body load is loaded. -/
theorem loadStateImage_eq {h : StateImageHeader} (hh : loadHeader image = .ok h)
    {target t : PartitionState} {arena arena' : Arena}
    (hb : Load.loadBody image h (target, arena) = .ok (.ok ⟨⟩, (t, arena'))) :
    loadStateImage target arena image = .ok (.kOk, t, arena') := by
  unfold loadStateImage
  rw [hh]
  dsimp only
  rw [hb]
  rfl

/-- What loading the image of a state gives, sets included. -/
theorem loadStateImage_refilled (hs : s.Sound) (target : PartitionState) {arena : Arena}
    (harena : ArenaFits arena s.cap) :
    ∃ t arena' slots, loadStateImage target arena (imageOf s) = .ok (.kOk, t, arena') ∧
      Agree s t ∧ slotCount s.cap.corporateActionsPerGen.toNat = some slots ∧
      Refilled slots s.appliedActions t.appliedActions ∧
      Refilled slots s.appliedIncome t.appliedIncome := by
  obtain ⟨⟨na, np, ni, nt, ng⟩, hslots, hok, hover⟩ := exists_slots harena
  obtain ⟨t, hload, hag, hsets⟩ := loadBody_imageOf hs target hslots (Prod.ext hok rfl) hover
  exact ⟨t, (arena.allocBlocks (initBlocks s.cap (na, np, ni, nt, ng))).2, ng,
    loadStateImage_eq (loadHeader_imageOf hs) hload, hag,
    (indexSlots_eq_some.mp hslots).2.2.2.2, hsets⟩

/-- The image of a state loads, into any target and any arena with room, as a state that no event
can tell from it. -/
theorem loadStateImage_imageOf (hs : s.Sound) (target : PartitionState) {arena : Arena}
    (harena : ArenaFits arena s.cap) :
    ∃ t arena', loadStateImage target arena (imageOf s) = .ok (.kOk, t, arena') ∧ Agree s t := by
  obtain ⟨t, arena', slots, hload, hag, -⟩ := loadStateImage_refilled hs target harena
  exact ⟨t, arena', hload, hag⟩

/-- Saving succeeds whenever the buffer has the size asked for. -/
theorem saveStateImage_eq {room : ℕ} (hroom : stateImageBytes s ≤ room) :
    saveStateImage s room = .ok (imageOf s) := by
  rw [saveStateImage, if_neg (by omega)]
  rfl

end Image

end MotorRv
