import MotorRv.Base.Status

/-!
# The bump arena

Only the bookkeeping of the arena matters here: whether a request is granted. A request is refused
when the arena is sealed, when it asks for nothing, and when it does not fit; only the last leaves
a mark.

An object is built from blocks of columns. The columns of a ledger are requested one after the other
and the first refusal ends the construction (`allocColumns`); an index asks for all of its columns
and looks at the answers afterwards (`allocAll`), so that a refused column does not spare the arena
the later ones. The difference can be seen after a refusal only, in how much of the arena is gone,
and it is kept here because the code goes on with an arena that a refused block has eaten into.

What is granted is a range of offsets; the base of the mapping is taken to be aligned to whatever is
asked for.
-/

namespace MotorRv

structure Arena where
  cap : ℕ
  used : ℕ
  sealed : Bool
  overflowed : Bool
  deriving DecidableEq

namespace Arena

/-- Whether `n` bytes with the given alignment are granted, and the arena after it. -/
def allocate (a : Arena) (n align : ℕ) : Bool × Arena :=
  if a.sealed ∨ n = 0 then (false, a)
  else
    let off := (a.used + align - 1) / align * align
    if a.cap < off + n then (false, { a with overflowed := true })
    else (true, { a with used := off + n })

/-- A block of an initialisation: columns requested together, given as size and alignment. An
index asks for all its columns before it looks at the answers; a ledger stops at the first
refusal. -/
structure Block where
  columns : List (ℕ × ℕ)
  eager : Bool

/-- Request the columns of a ledger one after another. -/
def allocColumns : Arena → List (ℕ × ℕ) → Bool × Arena
  | a, [] => (true, a)
  | a, (n, align) :: rest =>
    match a.allocate n align with
    | (true, a') => a'.allocColumns rest
    | (false, a') => (false, a')

/-- How many columns of a ledger are granted before one is refused. -/
def columnsGranted : Arena → List (ℕ × ℕ) → ℕ
  | _, [] => 0
  | a, (n, align) :: rest =>
    match a.allocate n align with
    | (true, a') => a'.columnsGranted rest + 1
    | (false, _) => 0

/-- Request all the columns of an index. -/
def allocAll : Arena → List (ℕ × ℕ) → Bool × Arena
  | a, [] => (true, a)
  | a, (n, align) :: rest =>
    match a.allocate n align with
    | (ok, a') =>
      match a'.allocAll rest with
      | (ok', a'') => (ok && ok', a'')

def allocBlock (a : Arena) (b : Block) : Bool × Arena :=
  if b.eager then a.allocAll b.columns else a.allocColumns b.columns

/-- Request block after block. -/
def allocBlocks : Arena → List Block → Bool × Arena
  | a, [] => (true, a)
  | a, b :: rest =>
    match a.allocBlock b with
    | (true, a') => a'.allocBlocks rest
    | (false, a') => (false, a')

end Arena

end MotorRv
