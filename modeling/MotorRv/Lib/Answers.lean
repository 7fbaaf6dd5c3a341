import Mathlib

/-!
# Data refinement by answers

An object is a state with operations, each of which answers something and leaves a new state. One
object refines another on the operations that the abstract state admits when the answers are the
same, one after the other, and the two end in related states.

The abstract object may refuse operations in some states: `Admitted` says that a run stays within
what it admits, and only such runs are compared. `runOps_refines` is the induction that every
refinement of this development ends in; what is left to show for one is that the relation holds of
the two initial states and that each operation keeps it. `forall_mem_runOps` is for what holds of
every single answer.
-/

namespace Lib

variable {σ μ ο α : Type*}

/-- Run operations one after the other, collecting the answers. -/
def runOps (step : σ → ο → α × σ) : σ → List ο → List α × σ
  | s, [] => ([], s)
  | s, o :: os => ((step s o).1 :: (runOps step (step s o).2 os).1, (runOps step (step s o).2 os).2)

/-- Every operation of the run is admitted by the state it is applied to. -/
def Admitted (ok : σ → ο → Prop) (step : σ → ο → α × σ) : σ → List ο → Prop
  | _, [] => True
  | s, o :: os => ok s o ∧ Admitted ok step (step s o).2 os

section Refines

variable {conc : σ → ο → α × σ} {abs : μ → ο → α × μ} {ok : μ → ο → Prop} {R : σ → μ → Prop}
  (hstep : ∀ s m o, R s m → ok m o → (conc s o).1 = (abs m o).1 ∧ R (conc s o).2 (abs m o).2)

include hstep

/-- **Simulation.** A relation that every admitted operation keeps, with equal answers, carries
over to runs. -/
theorem runOps_refines : ∀ (ops : List ο) (s : σ) (m : μ), R s m → Admitted ok abs m ops →
    (runOps conc s ops).1 = (runOps abs m ops).1 ∧ R (runOps conc s ops).2 (runOps abs m ops).2
  | [], _, _, hR, _ => ⟨rfl, hR⟩
  | o :: os, s, m, hR, hok => by
    obtain ⟨hans, hnext⟩ := hstep s m o hR hok.1
    obtain ⟨hrest, hend⟩ := runOps_refines os _ _ hnext hok.2
    refine ⟨?_, hend⟩
    rw [runOps, runOps, hans, hrest]

/-- What holds of the answer of every admitted operation holds of every answer of a run. -/
theorem forall_mem_runOps {P : α → Prop} (hP : ∀ s m o, R s m → ok m o → P (conc s o).1) :
    ∀ (ops : List ο) (s : σ) (m : μ), R s m → Admitted ok abs m ops →
      ∀ a ∈ (runOps conc s ops).1, P a
  | [], _, _, _, _, a, ha => by simp [runOps] at ha
  | o :: os, s, m, hR, hok, a, ha => by
    obtain ⟨-, hnext⟩ := hstep s m o hR hok.1
    rw [runOps, List.mem_cons] at ha
    obtain rfl | ha := ha
    · exact hP s m o hR hok.1
    · exact forall_mem_runOps hP os _ _ hnext hok.2 a ha

end Refines

end Lib
