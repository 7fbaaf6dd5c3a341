import MotorRv.Lib.Answers

/-!
# Programs that call an object

A program that calls an object is the tree of what it asks next, given what it was answered. Run on
an object it ends with a result and a state; what it asked is an ordinary list of operations. Two
objects that answer that list alike cannot be told apart by the program.

`run` and `asked` are computed by the same recursion, so that what a program did to an object can be
looked at as a run of `runOps`: `run_state` gives the state that is reached and `run_eq_of_answers`
the rest. A simulation that is proved for lists of operations, whatever their order, therefore holds
of every program over them, and the program itself is never opened in its proof.
-/

namespace Lib

variable {σ τ ο α β γ : Type*}

/-- A program that calls an object. -/
inductive Calls (ο α β : Type*)
  | ret (b : β)
  | call (o : ο) (next : α → Calls ο α β)

namespace Calls

/-- One program after the other. -/
def bind (p : Calls ο α β) (f : β → Calls ο α γ) : Calls ο α γ :=
  match p with
  | ret b => f b
  | call o next => call o fun a => (next a).bind f

/-- Run a program on an object. -/
def run (step : σ → ο → α × σ) : Calls ο α β → σ → β × σ
  | ret b, s => (b, s)
  | call o next, s => run step (next (step s o).1) (step s o).2

/-- What a program asks when it runs on an object. -/
def asked (step : σ → ο → α × σ) : Calls ο α β → σ → List ο
  | ret _, _ => []
  | call o next, s => o :: asked step (next (step s o).1) (step s o).2

@[simp]
theorem run_ret (step : σ → ο → α × σ) (b : β) (s : σ) :
    (ret b : Calls ο α β).run step s = (b, s) := rfl

@[simp]
theorem run_call (step : σ → ο → α × σ) (o : ο) (next : α → Calls ο α β) (s : σ) :
    (call o next).run step s = (next (step s o).1).run step (step s o).2 := rfl

theorem run_bind (step : σ → ο → α × σ) (f : β → Calls ο α γ) : ∀ (p : Calls ο α β) (s : σ),
    (p.bind f).run step s = (f (p.run step s).1).run step (p.run step s).2
  | ret _, _ => rfl
  | call o next, s => run_bind step f (next (step s o).1) (step s o).2

/-- The state after a program is the state after what it asked. -/
theorem run_state (step : σ → ο → α × σ) : ∀ (p : Calls ο α β) (s : σ),
    (p.run step s).2 = (runOps step s (p.asked step s)).2
  | ret _, _ => rfl
  | call o next, s => run_state step (next (step s o).1) (step s o).2

/-- **Equal answers, equal runs.** An object that answers alike what a program asks of another is
asked the same, and gives the same result. -/
theorem run_eq_of_answers {step : σ → ο → α × σ} {step' : τ → ο → α × τ} :
    ∀ (p : Calls ο α β) (s : σ) (t : τ),
      (runOps step' t (p.asked step s)).1 = (runOps step s (p.asked step s)).1 →
        (p.run step' t).1 = (p.run step s).1 ∧ p.asked step' t = p.asked step s
  | ret _, _, _, _ => ⟨rfl, rfl⟩
  | call o next, s, t, h => by
    rw [asked, runOps, runOps] at h
    obtain ⟨hans, hrest⟩ := List.cons.inj h
    obtain ⟨hrun, hasked⟩ := run_eq_of_answers (next (step s o).1) (step s o).2 (step' t o).2 hrest
    rw [run, run, asked, asked, hans]
    exact ⟨hrun, congrArg (List.cons o) hasked⟩

end Calls

end Lib
