import Mathlib

/-!
# Status codes

`Err` lists the error codes of the base, codec, core and WAL ranges with their stable numbers,
and `Status` pairs a code with its 32-bit detail. The class of an error is decided by its
numeric range plus the one explicit exception `arenaExhausted`.

`Abort` is the way a call ends without returning a status: the two panics, which abort the
process, and two ways in which the C++ has no defined result that a caller could see — an index
outside its column and a list walk that never ends.

`Exec` is the monad of everything that may abort. A handler that fails with a status has returned in
the sense of `Exec`; its status is a value, which the callers look at, count and log. `classify`
cuts the statuses into the three classes that the partition distinguishes: applied, rejected, and
fatal, of which only the last stops it. Codes that no modelled function returns are left out.
-/

namespace MotorRv

/-- The error codes, by range: 1–99 base, 100–199 codec, 200–299 core, 300–399 WAL. -/
inductive Err
  | ok
  | outOfRange
  | arenaExhausted
  | overflow
  | notFound
  | wouldBlock
  | invalidArgument
  | unknownTemplate
  | shortPayload
  | badBlockLength
  | groupTooLarge
  | misaligned
  | invalidTransition
  | alreadyApplied
  | negativeBucket
  | qtyMismatch
  | unknownBatch
  | amountMismatch
  | shortSaleNotAllowed
  | instrumentNotDescribed
  | outsideSettlementWindow
  | unknownInstrument
  | unknownAccount
  | ledgerOverflow
  | stateCorrupt
  | walFull
  | shortWrite
  | ioError
  | badCrc
  | badMagic
  | lsnGap
  | epochMismatch
  | segmentFull
  deriving DecidableEq, Repr

/-- The stable number of each code. -/
def Err.code : Err → ℕ
  | .ok => 0
  | .outOfRange => 1
  | .arenaExhausted => 2
  | .overflow => 3
  | .notFound => 4
  | .wouldBlock => 5
  | .invalidArgument => 6
  | .unknownTemplate => 100
  | .shortPayload => 101
  | .badBlockLength => 102
  | .groupTooLarge => 103
  | .misaligned => 104
  | .invalidTransition => 200
  | .alreadyApplied => 201
  | .negativeBucket => 202
  | .qtyMismatch => 203
  | .unknownBatch => 204
  | .amountMismatch => 205
  | .shortSaleNotAllowed => 206
  | .instrumentNotDescribed => 207
  | .outsideSettlementWindow => 208
  | .unknownInstrument => 250
  | .unknownAccount => 251
  | .ledgerOverflow => 252
  | .stateCorrupt => 253
  | .walFull => 300
  | .shortWrite => 350
  | .ioError => 351
  | .badCrc => 352
  | .badMagic => 353
  | .lsnGap => 354
  | .epochMismatch => 355
  | .segmentFull => 356

/-- An error is fatal by its range, or because the arena ran out after the warm-up. -/
def Err.isFatal (e : Err) : Bool :=
  if 250 ≤ e.code ∧ e.code < 300 then true
  else if 350 ≤ e.code ∧ e.code < 400 then true
  else decide (e = .arenaExhausted)

/-- A status: a code and the free number that goes with it. -/
structure Status where
  code : Err
  detail : UInt32
  deriving DecidableEq, Repr

namespace Status

/-- `kOk`. -/
def kOk : Status := ⟨.ok, 0⟩

/-- `Status::fail`; the detail defaults to zero. -/
def fail (e : Err) (detail : UInt32 := 0) : Status := ⟨e, detail⟩

def isOk (s : Status) : Bool := decide (s.code = .ok)

def isFatal (s : Status) : Bool := s.code.isFatal

@[simp] theorem isOk_kOk : kOk.isOk = true := rfl

@[simp]
theorem isFatal_fail (e : Err) (d : UInt32) : (fail e d).isFatal = e.isFatal := rfl

@[simp]
theorem isOk_fail (e : Err) (d : UInt32) : (fail e d).isOk = decide (e = .ok) := rfl

end Status

/-- The three classes of an applied event. -/
inductive ApplyClass
  | accepted
  | rejected
  | fatal
  deriving DecidableEq, Repr

def classify (s : Status) : ApplyClass :=
  if s.isOk then .accepted else if s.isFatal then .fatal else .rejected

/-- How a call ends without returning. -/
inductive Abort
  | panicOverflow
  | panicPrecondition
  | outOfBounds
  | endlessLoop
  deriving DecidableEq, Repr

/-- A computation of the engine that may abort. -/
abbrev Exec := Except Abort

end MotorRv
