import Mathlib

/-!
# Byte strings: little-endian words, slices and positioned writes

A byte string is a list of bytes; a file is a byte string too. Three groups of facts, used
by everything that reads or writes bytes:

* **Words.** `le w n` is the `w`-byte little-endian word of `n`, `ofLe` its inverse, and
  `encU8` … `encI64` the fixed-width encoders with their readers.
* **Positions.** `slice b off n` reads, and `HoldsAt b off xs` says that `xs` stands at offset
  `off`. Concatenation splits (`holdsAt_append`), so a reader is verified piece by piece.
* **Writes.** `writeAt b off xs` overwrites and, past the end, extends with zeros; it holds
  what it wrote and leaves disjoint ranges alone.

Lengths are not part of the types, so each lemma names the bound it needs, and a read that would
leave the string is either short (`slice`) or refused (`readAt`). The last lemmas see a string as a
function of the position, with zero behind its end: this is how files that were written in pieces
are compared, since a write behind the end and a preallocated file then look the same
(`getD_writeAt`, `HoldsAt.of_getD`).
-/

namespace Lib

/-- A byte string. -/
abbrev Bytes := List UInt8

/-! ### Little-endian words -/

/-- The `w` little-endian bytes of `n`; what does not fit is dropped. -/
def le : ℕ → ℕ → Bytes
  | 0, _ => []
  | w + 1, n => UInt8.ofNat n :: le w (n / 256)

/-- The natural number whose little-endian bytes are given. -/
def ofLe : Bytes → ℕ
  | [] => 0
  | b :: bs => b.toNat + 256 * ofLe bs

/-- A number takes as many bytes as it is given. -/
@[simp]
theorem length_le (w n : ℕ) : (le w n).length = w := by
  induction w generalizing n with
  | zero => rfl
  | succ w ih => simp [le, ih]

/-- Bytes read back as the number, as far as they go. -/
theorem ofLe_le (w n : ℕ) : ofLe (le w n) = n % 256 ^ w := by
  induction w generalizing n with
  | zero => simp [le, ofLe, Nat.mod_one]
  | succ w ih =>
    have hb : (UInt8.ofNat n).toNat = n % 256 := by simp
    rw [le, ofLe, ih, hb, pow_succ', Nat.mod_mul]

/-- Bytes cannot say more than their number allows. -/
theorem ofLe_lt (bs : Bytes) : ofLe bs < 256 ^ bs.length := by
  induction bs with
  | nil => simp [ofLe]
  | cons b bs ih =>
    have hb : b.toNat < 256 := b.toNat_lt
    rw [ofLe, List.length_cons, pow_succ]
    omega

/-! ### Fixed-width fields -/

def encU8 (x : UInt8) : Bytes := [x]
def encU16 (x : UInt16) : Bytes := le 2 x.toNat
def encU32 (x : UInt32) : Bytes := le 4 x.toNat
def encU64 (x : UInt64) : Bytes := le 8 x.toNat
def encI32 (x : Int32) : Bytes := encU32 x.toUInt32
def encI64 (x : Int64) : Bytes := encU64 x.toUInt64

def decU8 (bs : Bytes) : UInt8 := bs.headD 0
def decU16 (bs : Bytes) : UInt16 := UInt16.ofNat (ofLe bs)
def decU32 (bs : Bytes) : UInt32 := UInt32.ofNat (ofLe bs)
def decU64 (bs : Bytes) : UInt64 := UInt64.ofNat (ofLe bs)
def decI32 (bs : Bytes) : Int32 := (decU32 bs).toInt32
def decI64 (bs : Bytes) : Int64 := (decU64 bs).toInt64

@[simp] theorem length_encU8 (x : UInt8) : (encU8 x).length = 1 := rfl
@[simp] theorem length_encU16 (x : UInt16) : (encU16 x).length = 2 := length_le _ _
@[simp] theorem length_encU32 (x : UInt32) : (encU32 x).length = 4 := length_le _ _
@[simp] theorem length_encU64 (x : UInt64) : (encU64 x).length = 8 := length_le _ _
@[simp] theorem length_encI32 (x : Int32) : (encI32 x).length = 4 := length_le _ _
@[simp] theorem length_encI64 (x : Int64) : (encI64 x).length = 8 := length_le _ _

@[simp] theorem decU8_encU8 (x : UInt8) : decU8 (encU8 x) = x := rfl

@[simp]
theorem decU16_encU16 (x : UInt16) : decU16 (encU16 x) = x := by
  have hx : x.toNat < 256 ^ 2 := x.toNat_lt
  rw [decU16, encU16, ofLe_le, Nat.mod_eq_of_lt hx, UInt16.ofNat_toNat]

@[simp]
theorem decU32_encU32 (x : UInt32) : decU32 (encU32 x) = x := by
  have hx : x.toNat < 256 ^ 4 := x.toNat_lt
  rw [decU32, encU32, ofLe_le, Nat.mod_eq_of_lt hx, UInt32.ofNat_toNat]

@[simp]
theorem decU64_encU64 (x : UInt64) : decU64 (encU64 x) = x := by
  have hx : x.toNat < 256 ^ 8 := x.toNat_lt
  rw [decU64, encU64, ofLe_le, Nat.mod_eq_of_lt hx, UInt64.ofNat_toNat]

@[simp]
theorem decI32_encI32 (x : Int32) : decI32 (encI32 x) = x := by
  rw [decI32, encI32, decU32_encU32]; rfl

@[simp]
theorem decI64_encI64 (x : Int64) : decI64 (encI64 x) = x := by
  rw [decI64, encI64, decU64_encU64]; rfl

/-! ### Slices and positions -/

/-- The `n` bytes of `b` from `off` on (fewer when `b` is too short). -/
def slice (b : Bytes) (off n : ℕ) : Bytes := (b.drop off).take n

/-- A piece of a list of pieces of equal length. -/
theorem slice_flatMap {α : Type} (f : α → Bytes) {n : ℕ} (hn : ∀ a, (f a).length = n) :
    ∀ (l : List α) (k : ℕ) (hk : k < l.length), slice (l.flatMap f) (n * k) n = f l[k]
  | a :: l, 0, _ => by
    rw [List.flatMap_cons, Nat.mul_zero, slice, List.drop_zero, List.take_left' (hn a)]
    rfl
  | a :: l, k + 1, hk => by
    have hlen := hn a
    rw [List.flatMap_cons, slice, Nat.mul_succ, Nat.add_comm, ← List.drop_drop,
      List.drop_left' hlen]
    exact slice_flatMap f hn l k (by simpa using hk)

/-- The byte string `xs` stands in `b` at offset `off`. -/
def HoldsAt (b : Bytes) (off : ℕ) (xs : Bytes) : Prop := xs <+: b.drop off

instance (b : Bytes) (off : ℕ) (xs : Bytes) : Decidable (HoldsAt b off xs) :=
  inferInstanceAs (Decidable (xs <+: b.drop off))

/-- A slice inside of the bytes has its full length. -/
theorem length_slice {b : Bytes} {off n : ℕ} (h : off + n ≤ b.length) :
    (slice b off n).length = n := by
  simp only [slice, List.length_take, List.length_drop]
  omega

/-- Reading before the end of a beginning. -/
theorem slice_take {b : Bytes} {off n m : ℕ} (h : off + n ≤ m) :
    slice (b.take m) off n = slice b off n := by
  rw [slice, slice, List.drop_take, List.take_take, min_eq_left (by omega)]

/-- A read that has to stay inside. -/
def readAt (b : Bytes) (off n : ℕ) : Option Bytes :=
  if off + n ≤ b.length then some (slice b off n) else none

/-- A read inside of the bytes gives the slice. -/
theorem readAt_eq {b : Bytes} {off n : ℕ} (h : off + n ≤ b.length) :
    readAt b off n = some (slice b off n) := if_pos h

/-- Bytes hold their slices. -/
theorem holdsAt_slice (b : Bytes) (off n : ℕ) : HoldsAt b off (slice b off n) :=
  List.take_prefix _ _

theorem HoldsAt.nil (b : Bytes) (off : ℕ) : HoldsAt b off [] := List.nil_prefix

/-- Bytes hold one text behind another just when they hold both where they stand. -/
theorem holdsAt_append {b : Bytes} {off : ℕ} {xs ys : Bytes} :
    HoldsAt b off (xs ++ ys) ↔ HoldsAt b off xs ∧ HoldsAt b (off + xs.length) ys := by
  simp only [HoldsAt, ← List.drop_drop]
  constructor
  · rintro ⟨t, ht⟩
    refine ⟨⟨ys ++ t, by rw [← ht, List.append_assoc]⟩, ⟨t, ?_⟩⟩
    rw [← ht, List.append_assoc, List.drop_left]
  · rintro ⟨⟨t, ht⟩, hys⟩
    rw [← ht, List.drop_left] at hys
    rw [← ht]
    exact List.prefix_append_right_inj xs |>.mpr hys

/-- The first of two texts stands where both begin. -/
theorem HoldsAt.left {b : Bytes} {off : ℕ} {xs ys : Bytes} (h : HoldsAt b off (xs ++ ys)) :
    HoldsAt b off xs := (holdsAt_append.mp h).1

/-- The second of two texts stands where the first ends. -/
theorem HoldsAt.right {b : Bytes} {off : ℕ} {xs ys : Bytes} (h : HoldsAt b off (xs ++ ys)) :
    HoldsAt b (off + xs.length) ys := (holdsAt_append.mp h).2

/-- What stands at an offset fits before the end. -/
theorem HoldsAt.length_le {b : Bytes} {off : ℕ} {xs : Bytes} (h : HoldsAt b off xs)
    (hne : xs ≠ []) : off + xs.length ≤ b.length := by
  have hl := List.IsPrefix.length_le h
  have hpos : 0 < xs.length := List.length_pos_iff.mpr hne
  rw [List.length_drop] at hl
  omega

/-- Reading back what stands at an offset. -/
theorem HoldsAt.slice_eq {b : Bytes} {off : ℕ} {xs : Bytes} (h : HoldsAt b off xs) :
    slice b off xs.length = xs := by
  obtain ⟨t, ht⟩ := h
  rw [slice, ← ht, List.take_left]

/-- Reading a part of what stands at an offset. -/
theorem HoldsAt.slice_part {b : Bytes} {off : ℕ} {xs ys zs : Bytes}
    (h : HoldsAt b off (xs ++ (ys ++ zs))) : slice b (off + xs.length) ys.length = ys :=
  h.right.left.slice_eq

/-- Bytes hold a text when each of its bytes is in its place. -/
theorem holdsAt_iff_getElem? {b : Bytes} {off : ℕ} {xs : Bytes} :
    HoldsAt b off xs ↔ ∀ i, i < xs.length → b[off + i]? = xs[i]? := by
  rw [HoldsAt, List.prefix_iff_getElem?]
  refine forall_congr' fun i => ?_
  constructor
  · intro h hi
    rw [← List.getElem?_drop, h hi, List.getElem?_eq_getElem hi]
  · intro h hi
    rw [List.getElem?_drop, h hi, List.getElem?_eq_getElem hi]

/-- Two strings that agree on a range hold the same bytes there. -/
theorem HoldsAt.congr {b b' : Bytes} {off : ℕ} {xs : Bytes} (h : HoldsAt b off xs)
    (hag : ∀ i, off ≤ i → i < off + xs.length → b'[i]? = b[i]?) : HoldsAt b' off xs := by
  rw [holdsAt_iff_getElem?] at h ⊢
  intro i hi
  rw [hag (off + i) (by omega) (by omega)]
  exact h i hi

/-- A slice only depends on the bytes that it covers. -/
theorem slice_congr {b b' : Bytes} {off n : ℕ}
    (hag : ∀ i, off ≤ i → i < off + n → b'[i]? = b[i]?) : slice b' off n = slice b off n := by
  refine List.ext_getElem? fun i => ?_
  simp only [slice, List.getElem?_take, List.getElem?_drop]
  split_ifs with hi
  · exact hag (off + i) (by omega) (by omega)
  · rfl

/-! ### Positioned writes -/

/-- Write `xs` at `off`. A write past the end leaves zeros in between, as a file does. -/
def writeAt (b : Bytes) (off : ℕ) (xs : Bytes) : Bytes :=
  (b ++ List.replicate (off - b.length) 0).take off ++ xs ++ b.drop (off + xs.length)

private theorem length_writeAt_head (b : Bytes) (off : ℕ) :
    ((b ++ List.replicate (off - b.length) 0).take off).length = off := by
  simp only [List.length_take, List.length_append, List.length_replicate]
  omega

/-- Writing extends the bytes as far as it reaches. -/
theorem length_writeAt (b : Bytes) (off : ℕ) (xs : Bytes) :
    (writeAt b off xs).length = max b.length (off + xs.length) := by
  simp only [writeAt, List.length_append, length_writeAt_head, List.length_drop]
  omega

/-- What was written is there. -/
theorem holdsAt_writeAt (b : Bytes) (off : ℕ) (xs : Bytes) :
    HoldsAt (writeAt b off xs) off xs := by
  refine ⟨b.drop (off + xs.length), ?_⟩
  rw [writeAt, List.append_assoc, List.drop_left' (length_writeAt_head b off)]

/-- Up to the end of the written range, a write inside the string is what was before it and what
it wrote. -/
theorem take_writeAt {b : Bytes} {off : ℕ} (xs : Bytes) (h : off ≤ b.length) :
    (writeAt b off xs).take (off + xs.length) = b.take off ++ xs := by
  have hpad : (b ++ List.replicate (off - b.length) 0).take off = b.take off := by
    rw [List.take_append_of_le_length h]
  rw [writeAt, hpad, List.take_left' (by simp; omega)]

/-- Before the written range a write changes nothing, up to the zeros it adds past the end. -/
theorem getElem?_writeAt_lt {b : Bytes} {off i : ℕ} {xs : Bytes} (hi : i < off)
    (hb : i < b.length) : (writeAt b off xs)[i]? = b[i]? := by
  rw [writeAt, List.append_assoc, List.getElem?_append_left (by rw [length_writeAt_head]; exact hi),
    List.getElem?_take_of_lt hi, List.getElem?_append_left hb]

/-- Inside the written range a write shows what it wrote. -/
theorem getElem?_writeAt_mid {b : Bytes} {off i : ℕ} {xs : Bytes} (h : off ≤ i)
    (hi : i < off + xs.length) : (writeAt b off xs)[i]? = xs[i - off]? := by
  have h' := holdsAt_iff_getElem?.mp (holdsAt_writeAt b off xs) (i - off) (by omega)
  rwa [show off + (i - off) = i by omega] at h'

/-- Past the written range a write changes nothing. -/
theorem getElem?_writeAt_ge {b : Bytes} {off i : ℕ} {xs : Bytes} (h : off + xs.length ≤ i) :
    (writeAt b off xs)[i]? = b[i]? := by
  have hl : off + xs.length ≤ i := h
  rw [writeAt, List.getElem?_append_right (by
      rw [List.length_append, length_writeAt_head]; exact hl),
    List.length_append, length_writeAt_head, List.getElem?_drop]
  congr 1
  omega

/-- A write at the end appends. -/
theorem writeAt_end {b : Bytes} {off : ℕ} (h : b.length = off) (xs : Bytes) :
    writeAt b off xs = b ++ xs := by
  subst h
  rw [writeAt, Nat.sub_self, List.replicate_zero, List.append_nil, List.take_length,
    List.drop_eq_nil_of_le (by omega), List.append_nil]

/-- A write inside the string keeps its length. -/
theorem length_writeAt_of_le {b : Bytes} {off : ℕ} {xs : Bytes} (h : off + xs.length ≤ b.length) :
    (writeAt b off xs).length = b.length := by
  rw [length_writeAt]
  omega

/-- A write keeps what stands at a disjoint range. -/
theorem HoldsAt.writeAt_of_disjoint {b : Bytes} {o off : ℕ} {ys xs : Bytes} (h : HoldsAt b o ys)
    (hd : o + ys.length ≤ off ∨ off + xs.length ≤ o) : HoldsAt (writeAt b off xs) o ys := by
  rcases eq_or_ne ys [] with rfl | hne
  · exact HoldsAt.nil _ _
  have hlen := h.length_le hne
  refine h.congr fun i hoi hi => ?_
  rcases hd with hd | hd
  · exact getElem?_writeAt_lt (by omega) (by omega)
  · exact getElem?_writeAt_ge (by omega)

/-! ### A string as a function of the position

Past its end a file reads as zeros, and a write that extends it leaves zeros; the value at a
position, with zero as the default, does not see the difference. -/

/-- The bytes after a write: what was written where it was, and the old ones elsewhere. -/
theorem getD_writeAt (b : Bytes) (off : ℕ) (xs : Bytes) (i : ℕ) :
    (writeAt b off xs).getD i 0 =
      if off ≤ i ∧ i < off + xs.length then xs.getD (i - off) 0 else b.getD i 0 := by
  simp only [List.getD_eq_getElem?_getD]
  split_ifs with h
  · rw [getElem?_writeAt_mid h.1 h.2]
  · rcases Nat.lt_or_ge i off with hlt | hge
    · rcases Nat.lt_or_ge i b.length with hb | hb
      · rw [getElem?_writeAt_lt hlt hb]
      · -- the gap before a write past the end
        have hlen := length_writeAt_head b off
        rw [List.getElem?_eq_none hb, writeAt, List.append_assoc,
          List.getElem?_append_left (by rw [hlen]; exact hlt), List.getElem?_take_of_lt hlt,
          List.getElem?_append_right hb, List.getElem?_replicate_of_lt (by omega)]
        rfl
    · rw [getElem?_writeAt_ge (by omega)]

/-- What stands at an offset, by positions. -/
theorem holdsAt_iff_getD {b : Bytes} {off : ℕ} {xs : Bytes} (hlen : off + xs.length ≤ b.length) :
    HoldsAt b off xs ↔ ∀ i < xs.length, b.getD (off + i) 0 = xs.getD i 0 := by
  rw [holdsAt_iff_getElem?]
  refine forall₂_congr fun i hi => ?_
  rw [List.getD_eq_getElem?_getD, List.getD_eq_getElem?_getD,
    List.getElem?_eq_getElem (show off + i < b.length by omega), List.getElem?_eq_getElem hi]
  simp

/-- Two strings that agree by positions on a range, the second not shorter, hold the same there. -/
theorem HoldsAt.of_getD {b b' : Bytes} {off : ℕ} {xs : Bytes} (h : HoldsAt b off xs)
    (hlen : b.length ≤ b'.length)
    (hag : ∀ i, off ≤ i → i < off + xs.length → b'.getD i 0 = b.getD i 0) :
    HoldsAt b' off xs := by
  rcases eq_or_ne xs [] with rfl | hne
  · exact HoldsAt.nil _ _
  have hfit := h.length_le hne
  rw [holdsAt_iff_getD hfit] at h
  rw [holdsAt_iff_getD (by omega)]
  intro i hi
  rw [hag (off + i) (by omega) (by omega), h i hi]

end Lib
