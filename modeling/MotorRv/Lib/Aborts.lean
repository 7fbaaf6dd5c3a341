import MotorRv.Lib.Proc

/-!
# What a procedure does not abort with

`Avoids B` says of a computation, and `Spares B` of a procedure run from one state, that it does
not abort with an abort in `B`. The rules are equivalences: the condition for a sequence is the
condition for its first part and, for each value that part returns, the condition for the rest.

`B` is a set of aborts. Taken as all of them, `Spares B` says that a procedure does not abort; taken
as one kind, that this kind of defect is not reached while others are left open. Because the rules
are equivalences, unfolding a procedure by them computes the exact condition under which it spares
`B`, in terms of the values that its queries read, and nothing is lost on the way.
-/

namespace Lib

universe u

section Except

variable {ε : Type*} {α β : Type u} {B : ε → Prop}

/-- The computation may abort, but not with an abort in `B`. -/
def Avoids (B : ε → Prop) (x : Except ε α) : Prop := ∀ d, x = .error d → ¬ B d

@[simp] theorem avoids_ok (a : α) : Avoids B (.ok a : Except ε α) := by
  rintro d ⟨⟩

@[simp] theorem avoids_pure (a : α) : Avoids B (pure a : Except ε α) := avoids_ok a

@[simp] theorem avoids_error (d : ε) : Avoids B (.error d : Except ε α) ↔ ¬ B d :=
  ⟨fun h => h d rfl, fun h _ hd => Except.error.inj hd ▸ h⟩

/-- A sequence avoids an abort when both parts do, the second at what the first returns. -/
theorem avoids_bind {x : Except ε α} {f : α → Except ε β} :
    Avoids B (x >>= f) ↔ Avoids B x ∧ ∀ a, x = .ok a → Avoids B (f a) := by
  cases x with
  | error d =>
    change Avoids B (.error d) ↔ _
    rw [avoids_error, avoids_error]
    exact ⟨fun h => ⟨h, fun a ha => by cases ha⟩, fun h => h.1⟩
  | ok a =>
    refine ⟨fun h => ⟨avoids_ok a, ?_⟩, fun h => h.2 a rfl⟩
    rintro _ ⟨⟩
    exact h

theorem Avoids.bind {x : Except ε α} {f : α → Except ε β} (hx : Avoids B x)
    (hf : ∀ a, x = .ok a → Avoids B (f a)) : Avoids B (x >>= f) := avoids_bind.mpr ⟨hx, hf⟩

@[simp] theorem avoids_map {x : Except ε α} {f : α → β} : Avoids B (x.map f) ↔ Avoids B x := by
  cases x with
  | error d => simp [Except.map]
  | ok a => simp [Except.map]

/-- A choice avoids an abort when each branch does under its condition. -/
theorem avoids_ite {c : Prop} [Decidable c] {x y : Except ε α} :
    Avoids B (if c then x else y) ↔ (c → Avoids B x) ∧ (¬ c → Avoids B y) := by
  split_ifs with hc
  · simp [hc]
  · simp [hc]

/-- Row by row. -/
theorem Avoids.mapM {f : α → Except ε β} : ∀ {xs : List α}, (∀ x ∈ xs, Avoids B (f x)) →
    Avoids B (xs.mapM f) := by
  intro xs
  induction xs with
  | nil =>
    intro _
    exact avoids_ok []
  | cons x xs ih =>
    intro h
    rw [List.mapM_cons]
    refine .bind (h x List.mem_cons_self) fun y _ => ?_
    exact .bind (ih fun x' hx' => h x' (List.mem_cons_of_mem _ hx')) fun ys _ => avoids_ok _

end Except

namespace Proc

variable {δ ε σ α β : Type u} {B : δ → Prop} {s : σ}

/-- From `s` the procedure does not abort with an abort in `B`. -/
def Spares (B : δ → Prop) (m : Proc δ ε σ α) (s : σ) : Prop := Avoids B (m s)

/-- A sequence of procedures, the second from where the first leaves off. -/
theorem spares_bind {m : Proc δ ε σ α} {f : α → Proc δ ε σ β} :
    Spares B (m >>= f) s ↔ Spares B m s ∧ ∀ a s', m s = .ok (.ok a, s') → Spares B (f a) s' := by
  unfold Spares
  rw [bind_run]
  rcases m s with d | ⟨e | a, s₁⟩
  · refine ⟨fun h => ⟨fun d' hd => h d' (by cases hd; rfl), fun a s' ha => by cases ha⟩,
      fun h => ?_⟩
    exact fun d' hd => h.1 d' (by cases hd; rfl)
  · simp
  · refine ⟨fun h => ⟨avoids_ok _, ?_⟩, fun h => h.2 a s₁ rfl⟩
    rintro _ _ ⟨⟩
    exact h

/-- The rule of sequencing. -/
theorem Spares.bind {m : Proc δ ε σ α} {f : α → Proc δ ε σ β} (hm : Spares B m s)
    (hf : ∀ a s', m s = .ok (.ok a, s') → Spares B (f a) s') : Spares B (m >>= f) s :=
  spares_bind.mpr ⟨hm, hf⟩

/-- A part that is itself a sequence. -/
theorem spares_assoc {γ : Type u} {m : Proc δ ε σ α} {f : α → Proc δ ε σ β}
    {g : β → Proc δ ε σ γ} :
    Spares B ((m >>= f) >>= g) s ↔ Spares B (m >>= fun a => f a >>= g) s := by
  unfold Spares
  rw [bind_run, bind_run, bind_run]
  rcases m s with d | ⟨e | a, s'⟩
  · exact Iff.rfl
  · exact Iff.rfl
  · dsimp only
    rw [bind_run]

@[simp] theorem spares_pure (a : α) : Spares B (pure a : Proc δ ε σ α) s := avoids_ok _

@[simp] theorem spares_fail (e : ε) : Spares B (fail e : Proc δ ε σ α) s := avoids_ok _

@[simp] theorem spares_ofExcept (x : Except ε α) : Spares B (ofExcept x : Proc δ ε σ α) s := by
  cases x with
  | error e => exact spares_fail e
  | ok a => exact spares_pure a

@[simp] theorem spares_orFail (o : Option α) (e : ε) : Spares B (orFail o e : Proc δ ε σ α) s := by
  cases o with
  | none => exact spares_fail e
  | some a => exact spares_pure a

@[simp] theorem spares_guard (c : Prop) [Decidable c] (e : ε) :
    Spares B (guard c e : Proc δ ε σ PUnit) s := by
  unfold guard
  split_ifs
  · exact spares_pure _
  · exact spares_fail e

/-- A query is spared when what it reads can be read. -/
@[simp] theorem spares_query {g : σ → Except δ α} :
    Spares B (query g : Proc δ ε σ α) s ↔ Avoids B (g s) := avoids_map

/-- An update is spared when it can be made. -/
@[simp] theorem spares_update {g : σ → Except δ σ} :
    Spares B (update g : Proc δ ε σ PUnit) s ↔ Avoids B (g s) := avoids_map

/-- A step that always answers cannot abort. -/
@[simp] theorem spares_act {g : σ → α × σ} : Spares B (act g : Proc δ ε σ α) s := avoids_ok _

/-- The condition for the rest of a procedure after one of its basic parts. -/
theorem spares_query_bind {g : σ → Except δ α} {f : α → Proc δ ε σ β} :
    Spares B (query g >>= f) s ↔ Avoids B (g s) ∧ ∀ a, g s = .ok a → Spares B (f a) s := by
  rw [spares_bind, spares_query]
  refine and_congr_right fun _ => ⟨fun h a ha => ?_, fun h a s' ha => ?_⟩
  · exact h a s (query_eq_ok.mpr ⟨a, ha, rfl, rfl⟩)
  · obtain ⟨a', ha', hr, rfl⟩ := query_eq_ok.mp ha
    exact Except.ok.inj hr ▸ h a' ha'

/-- Behind a step that always answers, the rest runs from the state it leaves. -/
theorem spares_act_bind {g : σ → α × σ} {f : α → Proc δ ε σ β} :
    Spares B (act g >>= f) s ↔ Spares B (f (g s).1) (g s).2 := by
  rw [spares_bind]
  refine ⟨fun h => h.2 _ _ rfl, fun h => ⟨spares_act, fun a s' ha => ?_⟩⟩
  obtain ⟨hr, rfl⟩ := act_eq_ok.mp ha
  exact Except.ok.inj hr ▸ h

/-- Behind an `orFail` the value is there. -/
theorem spares_orFail_bind {o : Option α} {e : ε} {f : α → Proc δ ε σ β} :
    Spares B (orFail o e >>= f) s ↔ ∀ a, o = some a → Spares B (f a) s := by
  cases o with
  | none =>
    refine ⟨fun _ a ha => (by cases ha), fun _ => ?_⟩
    exact spares_fail e
  | some a =>
    refine ⟨fun h => ?_, fun h => h a rfl⟩
    rintro _ ⟨⟩
    exact h

variable {f : PUnit → Proc δ ε σ β}

/-- Behind an update the rest runs from its result. -/
theorem spares_update_bind {g : σ → Except δ σ} :
    Spares B (update g >>= f) s ↔ Avoids B (g s) ∧ ∀ s', g s = .ok s' → Spares B (f ⟨⟩) s' := by
  rw [spares_bind, spares_update]
  refine and_congr_right fun _ => ⟨fun h s' hs' => ?_, fun h a s' ha => ?_⟩
  · exact h ⟨⟩ s' (update_eq_ok.mpr ⟨hs', rfl⟩)
  · exact h s' (update_eq_ok.mp ha).1

/-- Behind a guard the condition holds. -/
theorem spares_guard_bind {c : Prop} [Decidable c] {e : ε} :
    Spares B (guard c e >>= f) s ↔ (c → Spares B (f ⟨⟩) s) := by
  unfold guard
  split_ifs with hc
  · exact ⟨fun h _ => h, fun h => h hc⟩
  · exact ⟨fun _ h => absurd h hc, fun _ => spares_fail e⟩

end Proc

end Lib
