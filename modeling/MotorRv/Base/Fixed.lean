import MotorRv.Base.Status

/-!
# Fixed-point arithmetic

`Qty`, `Price` and `Money` are 64-bit raw values; their sums are checked, and an overflow aborts
the process. `mulDiv` multiplies in 128 bits and divides with a rounding; an inexact quotient must
fit unless it is truncated, a truncated or exact one is cast.

The functions below it are the uses that the handlers make of `mulDiv`: a notional, the cost of a
position, an average price, and the scaling of quantities and prices by the factor of a corporate
action, each with the policy and the constants of the code. They return in `Exec`, since any of them
may abort; what they return is stated with rationals in the modules on rounding and on scaled
quantities.

The range tests (`qtyInRange` and its siblings) are tests of the code, made on what comes in from
outside. They are not part of the type: a stored value may lie outside of them, and where a result
needs a bound it says so.
-/

namespace MotorRv

/-- A raw 64-bit value, whatever its scale. -/
abbrev Raw := Int64

/-- `Qty::kOne`. -/
def kQtyOne : ℤ := 100000000

def kMaxQtyRaw : ℤ := 100000000 * 100000000
def kMaxPriceRaw : ℤ := 1000000 * 100000000
def kMaxMoneyRaw : ℤ := 100000000000000 * 10000 / 10

def qtyInRange (raw : Raw) : Bool := decide (-kMaxQtyRaw ≤ raw.toInt ∧ raw.toInt ≤ kMaxQtyRaw)
def priceInRange (raw : Raw) : Bool := decide (0 ≤ raw.toInt ∧ raw.toInt ≤ kMaxPriceRaw)
def moneyInRange (raw : Raw) : Bool := decide (-kMaxMoneyRaw ≤ raw.toInt ∧ raw.toInt ≤ kMaxMoneyRaw)

/-- The value fits in 64 bits. -/
def fitsRaw (x : ℤ) : Bool := decide (-2 ^ 63 ≤ x ∧ x < 2 ^ 63)

/-- A result that must fit, or the process aborts. -/
def checkedRaw (x : ℤ) : Exec Raw :=
  if fitsRaw x then .ok (Int64.ofInt x) else .error .panicOverflow

namespace Fixed

def add (a b : Raw) : Exec Raw := checkedRaw (a.toInt + b.toInt)
def sub (a b : Raw) : Exec Raw := checkedRaw (a.toInt - b.toInt)
def neg (a : Raw) : Exec Raw := checkedRaw (-a.toInt)

/-- `checked_add`: no result on overflow. -/
def checkedAdd (a b : Raw) : Option Raw :=
  if fitsRaw (a.toInt + b.toInt) then some (Int64.ofInt (a.toInt + b.toInt)) else none

end Fixed

theorem checkedRaw_eq_ok {x : ℤ} {r : Raw} (h : checkedRaw x = .ok r) : r.toInt = x := by
  unfold checkedRaw at h
  split_ifs at h with hfit
  obtain rfl := Except.ok.inj h
  have := of_decide_eq_true hfit
  exact Int64.toInt_ofInt_of_le this.1 this.2

namespace Fixed

theorem add_eq_ok {a b r : Raw} (h : add a b = .ok r) : r.toInt = a.toInt + b.toInt :=
  checkedRaw_eq_ok h

theorem sub_eq_ok {a b r : Raw} (h : sub a b = .ok r) : r.toInt = a.toInt - b.toInt :=
  checkedRaw_eq_ok h

theorem neg_eq_ok {a r : Raw} (h : neg a = .ok r) : r.toInt = -a.toInt :=
  checkedRaw_eq_ok h

end Fixed

/-! ### Products and quotients -/

inductive Rounding
  | towardZero
  | towardNegInf
  | halfUp
  | halfEven
  deriving DecidableEq

/-- `a * b / d` with the product in 128 bits. -/
def mulDiv (mode : Rounding) (a b : Raw) (d : ℤ) : Exec Raw :=
  if d ≤ 0 then .error .panicPrecondition
  else
    let n := a.toInt * b.toInt
    let q := n.tdiv d
    let r := n.tmod d
    if r = 0 then .ok (Int64.ofInt q)
    else
      let sign := if n < 0 then -1 else 1
      let twice := |r| * 2
      match mode with
      | .towardZero => .ok (Int64.ofInt q)
      | .towardNegInf => checkedRaw (if n < 0 then q - 1 else q)
      -- a tie goes away from zero
      | .halfUp => checkedRaw (if d ≤ twice then q + sign else q)
      | .halfEven =>
        checkedRaw (if d < twice ∨ (twice = d ∧ q.tmod 2 ≠ 0) then q + sign else q)

/-- `10 ^ 12`: from quantity times price to money, and back. -/
def kQtyPriceToMoney : ℤ := 1000000000000

def notionalHalfEven (q p : Raw) (priceFactor : UInt32) : Exec Raw :=
  if priceFactor = 0 then .error .panicPrecondition
  else if fitsRaw (kQtyPriceToMoney * priceFactor.toNat) then
    mulDiv .halfEven q p (kQtyPriceToMoney * priceFactor.toNat)
  else .error .panicOverflow

def positionCostHalfEven (q p : Raw) : Exec Raw := mulDiv .halfEven q p kQtyPriceToMoney

/-- The average price after `qAdd` more at a cost. -/
def averagePriceHalfEven (qOld pOld qAdd costAdd : Raw) : Exec Raw := do
  let oldCost ← positionCostHalfEven qOld pOld
  let totalCost ← Fixed.add oldCost costAdd
  let qNew ← Fixed.add qOld qAdd
  if qNew.toInt ≤ 0 then pure 0
  else mulDiv .halfEven totalCost (Int64.ofInt kQtyPriceToMoney) qNew.toInt

/-- Scale a held quantity: the whole shares, and the fraction left over. -/
def scaleQtyTrunc (q : Raw) (num den : UInt32) : Exec (Raw × Raw) :=
  if num = 0 ∨ den = 0 then .error .panicPrecondition
  else do
    let total ← mulDiv .towardZero q (Int64.ofInt num.toNat) den.toNat
    let whole := total.toInt.tdiv kQtyOne * kQtyOne
    pure (Int64.ofInt whole, Int64.ofInt (total.toInt - whole))

/-- Scale a quantity in flight, which keeps its fraction. -/
def scaleQtyKeepFraction (q : Raw) (num den : UInt32) : Exec Raw :=
  if num = 0 ∨ den = 0 then .error .panicPrecondition
  else mulDiv .towardZero q (Int64.ofInt num.toNat) den.toNat

def scalePriceHalfEven (p : Raw) (num den : UInt32) : Exec Raw :=
  if num = 0 ∨ den = 0 then .error .panicPrecondition
  else mulDiv .halfEven p (Int64.ofInt den.toNat) num.toNat

end MotorRv
