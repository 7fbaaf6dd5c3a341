import MotorRv.Lib.Bytes

/-!
# CRC32C

The table-driven path of the checksum. `crc32cByte` is one entry of the compile-time table, and
`crc32c` folds the bytes between the two complements, so that the checksum of a record can be
continued from the checksum of its header (`crc32c_append`).

The table itself is not stored here: an entry is computed by its eight shifts, which evaluates to
the same number. This is the definition that the format of the log is stated with. That it is the
checksum of the standard, and that the other ways in which the code computes it give the same
answer, is the subject of the module on the paths of the checksum.
-/

namespace MotorRv

open Lib

/-- The reflected Castagnoli polynomial. -/
def kPoly : UInt32 := 0x82F63B78

/-- Entry `i` of the table: eight reflected shifts. -/
def crc32cByte (i : UInt32) : UInt32 :=
  (List.range 8).foldl (fun c _ => if c &&& 1 = 1 then kPoly ^^^ (c >>> 1) else c >>> 1) i

/-- One byte of the running checksum. -/
def crc32cStep (c : UInt32) (b : UInt8) : UInt32 :=
  crc32cByte ((c ^^^ b.toUInt32) &&& 0xFF) ^^^ (c >>> 8)

/-- The checksum of `data` continued from `crc`. -/
def crc32c (crc : UInt32) (data : Bytes) : UInt32 := ~~~ data.foldl crc32cStep (~~~ crc)

/-- Checksumming in two pieces is checksumming the concatenation. -/
theorem crc32c_append (crc : UInt32) (a b : Bytes) :
    crc32c (crc32c crc a) b = crc32c crc (a ++ b) := by
  simp [crc32c, List.foldl_append]

/-- The check value of the algorithm: the checksum of the ASCII digits `123456789`. -/
example : crc32c 0 [49, 50, 51, 52, 53, 54, 55, 56, 57] = 0xE3069283 := by decide +kernel

end MotorRv
