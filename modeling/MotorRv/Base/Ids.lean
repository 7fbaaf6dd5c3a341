import MotorRv.Lib.Bytes

/-!
# Dates and hashing

A date is a `uint32` of the form `yyyymmdd`, zero when absent; `dayIndex` is the serial day number
the rotation of the idempotency sets compares. `mix64` is the hash of every index.

Both functions are total on all 64-bit, or 32-bit, arguments, and nothing in this module depends on
a date being one of the calendar; that `dayIndex` orders dates as a calendar does is proved apart.
Of `mix64` nothing is used but that it is a function: the tables are correct for every hash.
-/

namespace MotorRv

/-- A date as `yyyymmdd`; zero is no date. -/
abbrev DateYmd := UInt32

/-- A settlement window has three dates, so it has a first one. -/
instance neZero_three : NeZero 3 := ⟨by decide⟩

/-- The serial day number (proleptic civil calendar). The fields are small, so the only wrapping
arithmetic is the unsigned one of the day of the year. -/
def dayIndex (d : DateYmd) : ℤ :=
  let year : ℤ := d.toNat / 10000
  let month : ℤ := d.toNat / 100 % 100
  let day : ℤ := d.toNat % 100
  let y := if month ≤ 2 then year - 1 else year
  let era := (if 0 ≤ y then y else y - 399).tdiv 400
  let yoe := (y - era * 400) % 2 ^ 32
  let doy := ((153 * (month + (if 2 < month then -3 else 9)) + 2).tdiv 5 + day - 1) % 2 ^ 32
  let doe := (yoe * 365 + yoe / 4 - yoe / 100 + doy) % 2 ^ 32
  era * 146097 + (Int32.ofInt doe).toInt - 719468

example : dayIndex 19700101 = 0 ∧ dayIndex 20260902 = 20698 := by decide

/-- The 64-bit finalizer that spreads the keys. -/
def mix64 (x : UInt64) : UInt64 :=
  let x := x ^^^ (x >>> 30)
  let x := x * 0xbf58476d1ce4e5b9
  let x := x ^^^ (x >>> 27)
  let x := x * 0x94d049bb133111eb
  x ^^^ (x >>> 31)

end MotorRv
