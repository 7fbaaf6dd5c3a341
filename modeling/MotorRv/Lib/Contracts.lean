import MotorRv.Lib.Answers

/-!
# Contracts between a client and a server

A contract watches what is asked and what is answered: which requests a client may make, which
answers a server may give, and what the two leave on record. An object keeps a contract when, as
long as its client does, each of its answers is an allowed one; the record need not say more of the
object than the answers depend on, so that different objects can keep the same contract.

`Asked` is the client's side of a run and `Served` the object's: both walk along the requests and
their answers with the record that the contract keeps. The proof obligation of an object is one step
(`Keeps`), against a relation between its own state and the record that the prover chooses;
`Keeps.served` is the run. Where a contract lets the client ask everything, nothing is left to show
of the client (`asked_of_forall`).
-/

namespace Lib

variable {σ μ ο α : Type*}

/-- What may be asked and answered, given what is on record. -/
structure Contract (μ ο α : Type*) where
  asks : μ → ο → Prop
  allows : μ → ο → α → Prop
  after : μ → ο → α → μ

namespace Contract

variable (C : Contract μ ο α)

/-- Everything asked may be asked. -/
def Asked : μ → List ο → List α → Prop
  | m, o :: os, a :: as => C.asks m o ∧ Asked (C.after m o a) os as
  | _, _, _ => True

/-- Everything asked is answered, and every answer is allowed. -/
def Served : μ → List ο → List α → Prop
  | m, o :: os, a :: as => C.allows m o a ∧ Served (C.after m o a) os as
  | _, [], [] => True
  | _, _, _ => False

/-- An object keeps the contract: what it is asked in a state that the record describes, it answers
as allowed, and the new record describes the new state. -/
def Keeps (step : σ → ο → α × σ) (R : σ → μ → Prop) : Prop :=
  ∀ s m o, R s m → C.asks m o →
    C.allows m o (step s o).1 ∧ R (step s o).2 (C.after m o (step s o).1)

variable {C} {step : σ → ο → α × σ} {R : σ → μ → Prop}

/-- **Runs.** An object that keeps a contract keeps it through every run of a client that does. -/
theorem Keeps.served (h : C.Keeps step R) : ∀ (ops : List ο) (s : σ) (m : μ), R s m →
    C.Asked m ops (runOps step s ops).1 → C.Served m ops (runOps step s ops).1
  | [], _, _, _, _ => trivial
  | o :: os, s, m, hR, hasked => by
    rw [runOps] at hasked ⊢
    obtain ⟨hallowed, hnext⟩ := h s m o hR hasked.1
    exact ⟨hallowed, h.served os _ _ hnext hasked.2⟩

/-- A client that may ask everything. -/
theorem asked_of_forall (h : ∀ m o, C.asks m o) : ∀ (ops : List ο) (as : List α) (m : μ),
    C.Asked m ops as
  | [], _, _ => by simp [Asked]
  | _ :: _, [], _ => by simp [Asked]
  | o :: os, a :: as, m => ⟨h m o, asked_of_forall h os as _⟩

end Contract

end Lib
