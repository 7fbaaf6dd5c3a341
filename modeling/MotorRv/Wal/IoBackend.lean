import MotorRv.Base.Status
import MotorRv.Wal.Format

/-!
# The write backend

`IoBackend` is the environment of the log: it answers each `submit`, and each `reap` harvests
some of the accepted requests. What it will do is a `Script`, so that a statement about every
script is a statement about every backend — every order and grouping of completions, every delay,
error and short write. A completion is always one of a request still pending, so each accepted
request is reported at most once.

The lists `accepted`, `pending` and `delivered` record what happened; the log never reads them.

The environment is deterministic once its script is fixed, which makes a run of the log a function
and keeps the nondeterminism in one place, the quantifier over scripts. The three lists are what the
statements of the development are about: the requests in the order in which they were accepted, what
of them is outstanding, and the completions in the order in which they were given. That the backends
of the repository are covered is shown apart, through the contract that they keep.
-/

namespace MotorRv

open Lib

/-- The capacity of the table of requests in flight. -/
def kMaxInflight : ℕ := 32

/-- An aligned write; `bytes` is what stands in the registered buffer when it is submitted. -/
structure WriteRequest where
  bytes : Bytes
  offset : ℕ
  token : ℕ
  len : ℕ
  bufIdx : ℕ
  fileIdx : ℕ
  deriving DecidableEq

/-- What a completion says: which request ended, and how. -/
structure Completion where
  token : ℕ
  res : ℤ
  expected : ℕ
  deriving DecidableEq

/-- The write ended and wrote all that was asked. -/
def Completion.ok (c : Completion) : Bool := decide (c.res = c.expected)

/-- What a backend will do: the answer to the `n`-th submit, and for the `n`-th harvest which of
the pending requests end, by position, with which result. -/
structure Script where
  answer : ℕ → Status
  pick : ℕ → List (ℕ × ℤ)

structure IoBackend where
  script : Script
  submits : ℕ
  reaps : ℕ
  accepted : List WriteRequest
  pending : List WriteRequest
  delivered : List Completion

namespace IoBackend

/-- A backend that has done nothing yet. -/
def start (sc : Script) : IoBackend := ⟨sc, 0, 0, [], [], []⟩

/-- Hand over one write. -/
def submit (be : IoBackend) (req : WriteRequest) : Status × IoBackend :=
  let st := be.script.answer be.submits
  if st.isOk then
    (st, { be with submits := be.submits + 1, accepted := be.accepted ++ [req],
                   pending := be.pending ++ [req] })
  else (st, { be with submits := be.submits + 1 })

theorem submit_of_isOk {be : IoBackend} {req : WriteRequest} (h : (be.submit req).1.isOk = true) :
    (be.submit req).2 = { be with
      submits := be.submits + 1
      accepted := be.accepted ++ [req]
      pending := be.pending ++ [req] } := by
  unfold submit at h ⊢
  dsimp only at h ⊢
  split_ifs at h ⊢ with hst
  · rfl
  · exact absurd h hst

theorem submit_of_not_isOk {be : IoBackend} {req : WriteRequest}
    (h : (be.submit req).1.isOk = false) :
    (be.submit req).2 = { be with submits := be.submits + 1 } := by
  unfold submit at h ⊢
  dsimp only at h ⊢
  split_ifs at h ⊢ with hst
  · exact absurd hst (by simp [h])
  · rfl

/-- Complete the picked requests one after the other; a position past the end picks nothing. -/
def harvest : List (ℕ × ℤ) → List WriteRequest → List Completion × List WriteRequest
  | [], pending => ([], pending)
  | (i, res) :: picks, pending =>
    match pending[i]? with
    | none => harvest picks pending
    | some req =>
      let (cs, rest) := harvest picks (pending.eraseIdx i)
      (⟨req.token, res, req.len⟩ :: cs, rest)

/-- Harvest at most as many completions as the caller has room for. -/
def reap (be : IoBackend) (room : ℕ) : List Completion × IoBackend :=
  let (cs, rest) := harvest ((be.script.pick be.reaps).take room) be.pending
  (cs, { be with reaps := be.reaps + 1, pending := rest, delivered := be.delivered ++ cs })

end IoBackend

end MotorRv
