import MotorRv.Base.Crc32c
import MotorRv.Lib.Crc

/-!
# The paths of the checksum

The checksum is specified bit by bit (`crc32cBits`). The table path looks eight shifts up at once,
and the hardware path takes single bytes up to a multiple of eight, words of eight bytes, and the
single bytes that are left. All of them continue the checksum of what came before, so a log written
by one path is read by the other.

Each path is proved equal to the register that the polynomial defines (`crcRegister`, from the
library on cyclic redundancy checks), and then to the others through it: `crc32cTable_eq` for the
table that the code builds, `alignBytes_eq`, `wordBytes_eq` and `tailBytes_eq` for the three loops
of the hardware path. The two instructions are a parameter (`Sse42`) with what the processor manual
says of them as fields: advance the register over one byte, or over the eight bytes of a
little-endian word. The wide instruction takes the register in a word of 64 bits and leaves the
upper half of its result zero.

The last section is about detection: two texts that differ in at most four consecutive bytes have
different checksums (`crc32c_ne_of_burst`), because the register is as long as such a stretch.
-/

namespace MotorRv

open Lib

/-! ### Bit by bit -/

/-- The bits of a byte, lowest first. -/
def bitsOf (b : UInt8) : List Bool := (List.range 8).map b.toBitVec.getLsbD

/-- The register after the bytes, taken bit by bit. -/
def crcRegister (c : UInt32) (data : Bytes) : UInt32 :=
  ⟨Crc.run kPoly.toBitVec c.toBitVec (data.flatMap bitsOf)⟩

/-- The checksum continued from `crc`, bit by bit. -/
def crc32cBits (crc : UInt32) (data : Bytes) : UInt32 := ~~~ crcRegister (~~~crc) data

/-- The register runs through one text and then another. -/
theorem crcRegister_append (c : UInt32) (a b : Bytes) :
    crcRegister c (a ++ b) = crcRegister (crcRegister c a) b := by
  simp [crcRegister, Crc.run, List.flatMap_append, List.foldl_append]

@[simp] theorem crcRegister_nil (c : UInt32) : crcRegister c [] = c := rfl

/-! ### The table -/

def buildTable : List UInt32 := (List.range 256).map fun i => crc32cByte (UInt32.ofNat i)

def kTabela : List UInt32 := buildTable

/-- The checksum continued from `crc`, by the table. -/
def crc32cTable (crc : UInt32) (data : Bytes) : UInt32 :=
  ~~~ data.foldl (fun c p => kTabela.getD ((c ^^^ p.toUInt32) &&& 0xFF).toNat 0 ^^^ (c >>> 8))
    (~~~crc)

/-- The table of the code gives the register of the definition. -/
theorem crc32cTable_eq (crc : UInt32) (data : Bytes) : crc32cTable crc data = crc32c crc data := by
  have hstep : (fun (c : UInt32) (p : UInt8) =>
      kTabela.getD ((c ^^^ p.toUInt32) &&& 0xFF).toNat 0 ^^^ (c >>> 8)) = crc32cStep := by
    funext c p
    have hlt : ((c ^^^ p.toUInt32) &&& 0xFF).toNat < 256 := by
      rw [UInt32.toNat_and]
      exact Nat.lt_of_le_of_lt Nat.and_le_right (by decide)
    rw [crc32cStep, kTabela, buildTable, List.getD_eq_getElem?_getD, List.getElem?_map,
      List.getElem?_range hlt]
    simp
  rw [crc32cTable, hstep, crc32c]

/-- The test of the lowest bit, on numbers and on bit vectors. -/
theorem low_bit (c : UInt32) : c &&& 1 = 1 ↔ c.toBitVec.getLsbD 0 = true := by
  have h : (c &&& 1).toBitVec = (BitVec.ofBool (c.toBitVec.getLsbD 0)).setWidth 32 := by
    rw [UInt32.toBitVec_and]
    exact BitVec.and_one_eq_setWidth_ofBool_getLsbD
  rw [← UInt32.toBitVec_inj, h]
  cases c.toBitVec.getLsbD 0 <;> decide

/-- A byte is eight shifts. -/
theorem crc32cByte_toBitVec (i : UInt32) :
    (crc32cByte i).toBitVec = (Crc.shift kPoly.toBitVec)^[8] i.toBitVec := by
  have hshift : ∀ c : UInt32, (if c &&& 1 = 1 then kPoly ^^^ (c >>> 1) else c >>> 1).toBitVec =
      Crc.shift kPoly.toBitVec c.toBitVec := by
    intro c
    simp only [Crc.shift, low_bit]
    split_ifs <;> simp
  simp only [crc32cByte, List.range_succ, List.range_zero, List.foldl_append, List.foldl_cons,
    List.foldl_nil, List.nil_append, hshift, Function.iterate_succ_apply',
      Function.iterate_zero, id]

/-- The bits of a byte make the byte. -/
theorem ofBits_bitsOf (b : UInt8) : (Crc.ofBits (bitsOf b) : BitVec 32) = b.toUInt32.toBitVec := by
  refine BitVec.eq_of_getLsbD_eq fun i hi => ?_
  rw [Crc.getLsbD_ofBits, UInt8.toBitVec_toUInt32, BitVec.getLsbD_setWidth, bitsOf]
  by_cases h : i < 8
  · simp [h, hi]
  · simp [h, hi, Nat.le_of_not_lt h]

/-- One byte of the table path is eight bits. -/
theorem crc32cStep_toBitVec (c : UInt32) (b : UInt8) :
    (crc32cStep c b).toBitVec = Crc.run kPoly.toBitVec c.toBitVec (bitsOf b) := by
  have hmask : ∀ i, (0xFF : UInt32).toBitVec.getLsbD i = decide (i < 8 ∧ i < 32) := by
    intro i
    rw [show (0xFF : UInt32).toBitVec = (BitVec.allOnes 8).setWidth 32 from rfl,
      BitVec.getLsbD_setWidth, BitVec.getLsbD_allOnes]
    simp [Bool.and_comm]
  have hhigh : (c.toBitVec ^^^ b.toUInt32.toBitVec) >>> 8 = c.toBitVec >>> 8 := by
    refine BitVec.eq_of_getLsbD_eq fun i hi => ?_
    rw [BitVec.getLsbD_ushiftRight, BitVec.getLsbD_xor, UInt8.toBitVec_toUInt32,
      BitVec.getLsbD_setWidth, BitVec.getLsbD_of_ge b.toBitVec (8 + i) (Nat.le_add_right 8 i)]
    simp
  have hlen : (bitsOf b).length = 8 := by simp [bitsOf]
  rw [Crc.run_eq_iterate _ (by omega), ofBits_bitsOf, hlen, Crc.iterate_shift_split _ 8 _ hmask,
    hhigh, crc32cStep, UInt32.toBitVec_xor, crc32cByte_toBitVec]
  simp

/-- The table path runs through the bits. -/
theorem foldl_crc32cStep (c : UInt32) (data : Bytes) :
    data.foldl crc32cStep c = crcRegister c data := by
  induction data generalizing c with
  | nil => rfl
  | cons b bs ih =>
    have hb : crc32cStep c b = crcRegister c [b] := by
      rw [← UInt32.toBitVec_inj, crc32cStep_toBitVec]
      simp [crcRegister]
    rw [List.foldl_cons, ih, hb, ← crcRegister_append, List.singleton_append]

/-- The checksum of bytes is the one of their bits. -/
theorem crc32c_eq_bits (crc : UInt32) (data : Bytes) : crc32c crc data = crc32cBits crc data := by
  rw [crc32c, crc32cBits, foldl_crc32cStep]

/-! ### The hardware -/

/-- The two instructions, which advance the register over one byte and over the eight bytes of a
little-endian word. -/
structure Sse42 where
  crc32U8 : UInt32 → UInt8 → UInt32
  crc32U64 : UInt64 → UInt64 → UInt64
  crc32U8_eq : ∀ c b, crc32U8 c b = crcRegister c [b]
  crc32U64_eq : ∀ c bs, bs.length = 8 →
    crc32U64 c (decU64 bs) = (crcRegister c.toUInt32 bs).toUInt64

/-- Bytes are the bytes of the number that they say. -/
theorem le_ofLe (bs : Bytes) : le bs.length (ofLe bs) = bs := by
  induction bs with
  | nil => rfl
  | cons b bs ih =>
    have hb : b.toNat < 256 := b.toNat_lt
    have hhead : UInt8.ofNat (b.toNat + 256 * ofLe bs) = b := by
      rw [← UInt8.toNat_inj, UInt8.toNat_ofNat']
      omega
    rw [List.length_cons, le, ofLe, hhead,
      show (b.toNat + 256 * ofLe bs) / 256 = ofLe bs by omega, ih]

theorem encU64_decU64 {bs : Bytes} (h : bs.length = 8) : encU64 (decU64 bs) = bs := by
  have hlt : ofLe bs < 2 ^ 64 := by
    have := ofLe_lt bs
    rw [h] at this
    omega
  rw [encU64, decU64, UInt64.toNat_ofNat_of_lt' hlt, ← h, le_ofLe]

/-- An implementation of the instructions. -/
def Sse42.reference : Sse42 where
  crc32U8 c b := crcRegister c [b]
  crc32U64 c w := (crcRegister c.toUInt32 (encU64 w)).toUInt64
  crc32U8_eq _ _ := rfl
  crc32U64_eq c bs hbs := by rw [encU64_decU64 hbs]

section Hardware

variable (hw : Sse42)

/-- Single bytes until the address is a multiple of eight. -/
def alignBytes (c : UInt64) : ℕ → Bytes → UInt64 × Bytes
  | _, [] => (c, [])
  | addr, b :: bs =>
    if addr % 8 ≠ 0 then alignBytes (hw.crc32U8 c.toUInt32 b).toUInt64 (addr + 1) bs
    else (c, b :: bs)

/-- Words of eight bytes. -/
def wordBytes (c : UInt64) (data : Bytes) : UInt64 × Bytes :=
  if 8 ≤ data.length then wordBytes (hw.crc32U64 c (decU64 (data.take 8))) (data.drop 8)
  else (c, data)
termination_by data.length
decreasing_by
  rw [List.length_drop]
  omega

/-- The bytes that are left, one by one. -/
def tailBytes (c : UInt64) : Bytes → UInt64
  | [] => c
  | b :: bs => tailBytes (hw.crc32U8 c.toUInt32 b).toUInt64 bs

/-- The checksum continued from `crc`, of bytes that start at an address. -/
def crc32cHw (addr : ℕ) (crc : UInt32) (data : Bytes) : UInt32 :=
  let c : UInt64 := (~~~crc).toUInt64
  let (c, data) := alignBytes hw c addr data
  let (c, data) := wordBytes hw c data
  let c := tailBytes hw c data
  ~~~ c.toUInt32

/-- The register of the hardware path is a 32-bit one. -/
theorem alignBytes_eq (c : UInt32) : ∀ (addr : ℕ) (data : Bytes),
    ∃ before after, data = before ++ after ∧
      alignBytes hw c.toUInt64 addr data = ((crcRegister c before).toUInt64, after)
  | _, [] => ⟨[], [], rfl, rfl⟩
  | addr, b :: bs => by
    rw [alignBytes]
    split_ifs with h
    · obtain ⟨before, after, rfl, hrun⟩ := alignBytes_eq (crcRegister c [b]) (addr + 1) bs
      refine ⟨b :: before, after, rfl, ?_⟩
      rw [hw.crc32U8_eq, UInt32.toUInt32_toUInt64, hrun, ← crcRegister_append,
        List.singleton_append]
    · exact ⟨[], b :: bs, rfl, rfl⟩

/-- The loop over words runs the register through whole words of eight bytes. -/
theorem wordBytes_eq (c : UInt32) (data : Bytes) :
    ∃ before after, data = before ++ after ∧
      wordBytes hw c.toUInt64 data = ((crcRegister c before).toUInt64, after) := by
  induction hn : data.length using Nat.strong_induction_on generalizing c data with
  | _ n ih =>
    rw [wordBytes]
    split_ifs with h
    · have hlen : (data.take 8).length = 8 := List.length_take_of_le h
      obtain ⟨before, after, hdrop, hrun⟩ := ih (data.drop 8).length
        (by rw [List.length_drop]; omega) (crcRegister c (data.take 8)) (data.drop 8) rfl
      refine ⟨data.take 8 ++ before, after, ?_, ?_⟩
      · rw [List.append_assoc, ← hdrop, List.take_append_drop]
      · rw [hw.crc32U64_eq _ _ hlen, UInt32.toUInt32_toUInt64, hrun, crcRegister_append]
    · exact ⟨[], data, rfl, rfl⟩

/-- The loop over single bytes runs the register through the rest. -/
theorem tailBytes_eq (c : UInt32) (data : Bytes) :
    tailBytes hw c.toUInt64 data = (crcRegister c data).toUInt64 := by
  induction data generalizing c with
  | nil => rfl
  | cons b bs ih =>
    rw [tailBytes, hw.crc32U8_eq, UInt32.toUInt32_toUInt64, ih, ← crcRegister_append,
      List.singleton_append]

/-- The hardware form gives the checksum for every alignment. -/
theorem crc32cHw_eq (addr : ℕ) (crc : UInt32) (data : Bytes) :
    crc32cHw hw addr crc data = crc32c crc data := by
  obtain ⟨before, after, rfl, halign⟩ := alignBytes_eq hw (~~~crc) addr data
  obtain ⟨words, left, rfl, hwords⟩ := wordBytes_eq hw (crcRegister (~~~crc) before) after
  rw [crc32c_eq_bits, crc32cBits, crc32cHw, halign]
  dsimp only
  rw [hwords]
  dsimp only
  rw [tailBytes_eq, UInt32.toUInt32_toUInt64, crcRegister_append, crcRegister_append]

end Hardware

/-- `crc32c` on a machine that has the instructions, or has not. -/
def crc32cOn (hw : Option Sse42) (addr : ℕ) (crc : UInt32) (data : Bytes) : UInt32 :=
  match hw with
  | some hw => crc32cHw hw addr crc data
  | none => crc32cTable crc data

/-- With or without the instruction the checksum is the same. -/
theorem crc32cOn_eq (hw : Option Sse42) (addr : ℕ) (crc : UInt32) (data : Bytes) :
    crc32cOn hw addr crc data = crc32c crc data := by
  cases hw with
  | some hw => exact crc32cHw_eq hw addr crc data
  | none => exact crc32cTable_eq crc data

/-- **One checksum.** The table, the bits and the hardware agree at every address, and a checksum is
continued over a split by either machine. -/
theorem crc32c_paths (hw : Sse42) (machine machine' : Option Sse42) (addr addr' : ℕ)
    (crc : UInt32) (a b : Bytes) :
    crc32cTable crc a = crc32cBits crc a ∧
      crc32cHw hw addr crc a = crc32cTable crc a ∧
      crc32cTable (crc32cTable crc a) b = crc32cTable crc (a ++ b) ∧
      crc32cOn machine addr' (crc32cOn machine addr crc a) b =
        crc32cOn machine' addr crc (a ++ b) := by
  simp only [crc32cOn_eq, crc32cHw_eq, crc32cTable_eq, crc32c_append]
  exact ⟨crc32c_eq_bits crc a, trivial, trivial, trivial⟩

/-- The hardware path checks the digits `123456789` from an unaligned address. -/
theorem crc32c_paths_digits :
    crc32cHw .reference 3 0 [49, 50, 51, 52, 53, 54, 55, 56, 57] = 0xE3069283 :=
  (crc32c_paths .reference none none 3 0 0 [49, 50, 51, 52, 53, 54, 55, 56, 57] []).2.1.trans
    (by decide +kernel)

/-! ### Short damage -/

theorem length_bitsOf (data : Bytes) : (data.flatMap bitsOf).length = 8 * data.length := by
  induction data with
  | nil => rfl
  | cons b bs ih =>
    rw [List.flatMap_cons, List.length_append, ih, List.length_cons]
    simp [bitsOf]
    omega

/-- A byte can be told from its bits. -/
theorem bitsOf_injective : Function.Injective bitsOf := by
  intro a b h
  rw [← UInt8.toBitVec_inj]
  refine BitVec.eq_of_getLsbD_eq fun i hi => ?_
  have hbit := congrArg (·[i]?) h
  simpa [bitsOf, hi] using hbit

/-- Bytes can be told from their bits. -/
theorem flatMap_bitsOf_injective : ∀ {xs ys : Bytes}, xs.length = ys.length →
    xs.flatMap bitsOf = ys.flatMap bitsOf → xs = ys
  | [], [], _, _ => rfl
  | x :: xs, y :: ys, hlen, h => by
    rw [List.flatMap_cons, List.flatMap_cons] at h
    obtain ⟨hhead, htail⟩ := List.append_inj h (by simp [bitsOf])
    rw [bitsOf_injective hhead, flatMap_bitsOf_injective (by simpa using hlen) htail]

/-- Data that differ in at most four consecutive bytes have different checksums. -/
theorem crc32c_ne_of_burst (crc : UInt32) (before : Bytes) {xs ys : Bytes} (after : Bytes)
    (hlen : xs.length = ys.length) (hfour : xs.length ≤ 4) (hne : xs ≠ ys) :
    crc32c crc (before ++ (xs ++ after)) ≠ crc32c crc (before ++ (ys ++ after)) := by
  intro h
  rw [crc32c_eq_bits, crc32c_eq_bits, crc32cBits, crc32cBits, UInt32.not_inj,
    crcRegister_append _ before, crcRegister_append _ before, ← UInt32.toBitVec_inj] at h
  generalize crcRegister (~~~crc) before = c at h
  simp only [crcRegister, List.flatMap_append] at h
  have hpoly : kPoly.toBitVec.getLsbD (32 - 1) = true := by decide
  exact Crc.run_ne_of_burst hpoly (by rw [length_bitsOf, length_bitsOf, hlen])
    (by rw [length_bitsOf]; omega) (fun hbits => hne (flatMap_bitsOf_injective hlen hbits)) _ _ h

end MotorRv
