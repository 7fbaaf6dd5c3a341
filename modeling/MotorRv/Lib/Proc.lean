import Mathlib

/-!
# Procedures

A procedure works on a state and ends in one of three ways: it returns a value, it fails with an
error — the state it has reached by then stays — or it aborts, and then there is no state to speak
of. This is the shape of an imperative function with early returns.

Five properties are carried through sequencing: `Ensures`, a postcondition for each way of ending;
`From`, the same from one given state; `Respects`, that the last state is related to the first;
`Sim`, that two states which cannot be told apart give the same answer and stay so, unless the first
answer is one that ends the comparison; and `Carries`, that two related states give the same answer
and come, if that is a value, to states in another relation.

For each property there is one rule a combinator, so that a proof about a procedure follows its
text: `bind` splits a sequence, `query` and `act` step through it, and behind a `guard` or an
`orFail` the condition that was tested is known. `Ensures` is for what holds from every state,
`From` for a run from one state whose intermediate answers matter; `Ensures.from` passes from the
first to the second. The equations at the beginning (`bind_eq_ok` and those after it) turn a run
that ended without aborting into the runs of its parts, where a proof has to start from the outcome
instead.

Nothing is said about termination: a procedure is a function, and a loop that might not end is an
abort of the model that uses it.
-/

namespace Lib

universe u

section Except

variable {ε α β : Type*}

/-- A mapped computation that returns is a computation that returns. -/
theorem map_eq_ok {x : Except ε α} {f : α → β} {b : β} :
    x.map f = .ok b ↔ ∃ a, x = .ok a ∧ f a = b := by
  cases x with
  | error e => simp [Except.map]
  | ok a => simp [Except.map]

/-- A sequence returns just when both parts do, the second from what the first returned. -/
theorem except_bind_eq_ok {x : Except ε α} {f : α → Except ε β} {b : β} :
    x.bind f = .ok b ↔ ∃ a, x = .ok a ∧ f a = .ok b := by
  cases x with
  | error e => simp [Except.bind]
  | ok a => simp [Except.bind]

/-- Whatever the computation returns satisfies `Q`. -/
def Returns (x : Except ε α) (Q : α → Prop) : Prop := ∀ a, x = .ok a → Q a

/-- A value returns itself. -/
theorem Returns.ok {Q : α → Prop} {a : α} (h : Q a) : Returns (.ok a : Except ε α) Q := by
  rintro _ ⟨⟩
  exact h

/-- A choice returns what its branches do, each under its condition. -/
theorem Returns.ite {c : Prop} [Decidable c] {x y : Except ε α} {Q : α → Prop}
    (hx : c → Returns x Q) (hy : ¬ c → Returns y Q) : Returns (if c then x else y) Q := by
  split_ifs with hc
  · exact hx hc
  · exact hy hc

end Except

/-- For a sequence it is enough to look at the second part, at each value the first returns. -/
theorem Returns.bind {ε : Type*} {α β : Type u} {x : Except ε α} {f : α → Except ε β}
    {Q : β → Prop} (h : ∀ a, x = .ok a → Returns (f a) Q) : Returns (x >>= f) Q := by
  intro b hb
  obtain ⟨a, ha, hfa⟩ := except_bind_eq_ok.mp hb
  exact h a ha b hfa

/-- A procedure over states `σ` with errors `ε` and aborts `δ`. -/
def Proc (δ ε σ α : Type u) := σ → Except δ (Except ε α × σ)

namespace Proc

variable {δ ε σ α β : Type u}

protected def pure (a : α) : Proc δ ε σ α := fun s => .ok (.ok a, s)

protected def bind (m : Proc δ ε σ α) (f : α → Proc δ ε σ β) : Proc δ ε σ β := fun s =>
  match m s with
  | .error d => .error d
  | .ok (.error e, s') => .ok (.error e, s')
  | .ok (.ok a, s') => f a s'

instance : Monad (Proc δ ε σ) where
  pure := Proc.pure
  bind := Proc.bind

/-- Return early with an error. -/
def fail (e : ε) : Proc δ ε σ α := fun s => .ok (.error e, s)

/-- Compute something from the state; this may abort. -/
def query (f : σ → Except δ α) : Proc δ ε σ α := fun s => (f s).map fun a => (.ok a, s)

/-- A computation that may abort. -/
abbrev lift (x : Except δ α) : Proc δ ε σ α := query fun _ => x

/-- Look at the state. -/
abbrev read (f : σ → α) : Proc δ ε σ α := query fun s => .ok (f s)

/-- Go on with the result, or fail. -/
def ofExcept : Except ε α → Proc δ ε σ α
  | .ok a => pure a
  | .error e => fail e

/-- Go on with the value, or fail when there is none. -/
def orFail (o : Option α) (e : ε) : Proc δ ε σ α :=
  match o with
  | some a => pure a
  | none => fail e

/-- Change the state; the change may abort. -/
def update (f : σ → Except δ σ) : Proc δ ε σ PUnit :=
  fun s => (f s).map fun s' => (.ok ⟨⟩, s')

/-- Change the state and answer. -/
def act (f : σ → α × σ) : Proc δ ε σ α := fun s => .ok (.ok (f s).1, (f s).2)

/-- Fail unless the condition holds. -/
def guard (c : Prop) [Decidable c] (e : ε) : Proc δ ε σ PUnit := if c then pure ⟨⟩ else fail e

/-- A sequence goes on from the state that the first part leaves, unless that fails or aborts. -/
theorem bind_run (m : Proc δ ε σ α) (f : α → Proc δ ε σ β) (s : σ) :
    (m >>= f) s = match m s with
      | .error d => .error d
      | .ok (.error e, s') => .ok (.error e, s')
      | .ok (.ok a, s') => f a s' := rfl

theorem pure_run (a : α) (s : σ) : (pure a : Proc δ ε σ α) s = .ok (.ok a, s) := rfl

/-- How a sequence can end without aborting. -/
theorem bind_eq_ok {m : Proc δ ε σ α} {f : α → Proc δ ε σ β} {s s' : σ} {r : Except ε β} :
    (m >>= f) s = .ok (r, s') ↔
      (∃ a s₁, m s = .ok (.ok a, s₁) ∧ f a s₁ = .ok (r, s')) ∨
      (∃ e, m s = .ok (.error e, s') ∧ r = .error e) := by
  rw [bind_run]
  rcases hm : m s with d | ⟨e | a, s₁⟩
  · simp
  · simp only [Except.ok.injEq, Prod.mk.injEq, reduceCtorEq, false_and,
      exists_false, false_or, Except.error.injEq]
    constructor
    · rintro ⟨rfl, rfl⟩
      exact ⟨e, ⟨rfl, rfl⟩, rfl⟩
    · rintro ⟨e', ⟨rfl, rfl⟩, rfl⟩
      exact ⟨rfl, rfl⟩
  · simp

/-- A sequence that returns is two procedures that return. -/
theorem bind_eq_value {m : Proc δ ε σ α} {f : α → Proc δ ε σ β} {s s' : σ} {b : β} :
    (m >>= f) s = .ok (.ok b, s') ↔
      ∃ a s₁, m s = .ok (.ok a, s₁) ∧ f a s₁ = .ok (.ok b, s') := by
  rw [bind_eq_ok]
  simp

/-- A query that returns leaves the state as it is. -/
@[simp]
theorem query_eq_ok {f : σ → Except δ α} {s s' : σ} {r : Except ε α} :
    (query f : Proc δ ε σ α) s = .ok (r, s') ↔ ∃ a, f s = .ok a ∧ r = .ok a ∧ s' = s := by
  rcases h : f s with d | a
  · simp [query, h, Except.map]
  · simp only [query, h, Except.map, Except.ok.injEq, Prod.mk.injEq]
    constructor
    · rintro ⟨rfl, rfl⟩
      exact ⟨a, rfl, rfl, rfl⟩
    · rintro ⟨a', rfl, rfl, rfl⟩
      exact ⟨rfl, rfl⟩

@[simp]
theorem fail_eq_ok {e : ε} {s s' : σ} {r : Except ε α} :
    (fail e : Proc δ ε σ α) s = .ok (r, s') ↔ r = .error e ∧ s' = s := by
  simp [fail, eq_comm]

/-- An update that does not abort never fails. -/
@[simp]
theorem update_eq_ok {f : σ → Except δ σ} {s s' : σ} {r : Except ε PUnit} :
    (update f : Proc δ ε σ PUnit) s = .ok (r, s') ↔ f s = .ok s' ∧ r = .ok ⟨⟩ := by
  rcases h : f s with d | s₁
  · simp [update, h, Except.map]
  · simp [update, h, Except.map, and_comm, eq_comm]

@[simp]
theorem act_eq_ok {f : σ → α × σ} {s s' : σ} {r : Except ε α} :
    (act f : Proc δ ε σ α) s = .ok (r, s') ↔ r = .ok (f s).1 ∧ s' = (f s).2 := by
  simp [act, eq_comm]

@[simp]
theorem pure_eq_ok {a : α} {s s' : σ} {r : Except ε α} :
    (pure a : Proc δ ε σ α) s = .ok (r, s') ↔ r = .ok a ∧ s' = s := by
  rw [pure_run]
  simp [eq_comm]

/-- What is expected to be there is returned, or its absence is the failure. -/
theorem orFail_eq_ok {o : Option α} {e : ε} {s s' : σ} {r : Except ε α} :
    (orFail o e : Proc δ ε σ α) s = .ok (r, s') ↔
      s' = s ∧ ((∃ a, o = some a ∧ r = .ok a) ∨ (o = none ∧ r = .error e)) := by
  rcases o with _ | a
  · simp [orFail, and_comm]
  · simp [orFail, and_comm]

/-- A guard lets pass just when its condition holds, and touches nothing either way. -/
theorem guard_eq_ok {c : Prop} [Decidable c] {e : ε} {s s' : σ} {r : Except ε PUnit} :
    (guard c e : Proc δ ε σ PUnit) s = .ok (r, s') ↔
      s' = s ∧ ((c ∧ r = .ok ⟨⟩) ∨ (¬ c ∧ r = .error e)) := by
  unfold guard
  split_ifs with hc
  · simp [hc, and_comm]
  · simp [hc, and_comm]

/-! ### Pre- and postconditions -/

section Ensures

variable {P P' : σ → Prop} {Q Q' : α → σ → Prop} {E E' : ε → σ → Prop}

/-- From a state with `P`, a return satisfies `Q` and a failure `E`. -/
def Ensures (P : σ → Prop) (m : Proc δ ε σ α) (Q : α → σ → Prop) (E : ε → σ → Prop) : Prop :=
  ∀ s r s', P s → m s = .ok (r, s') →
    match r with
    | .ok a => Q a s'
    | .error e => E e s'

/-- The first postcondition speaks of the runs that return. -/
theorem Ensures.ok {m : Proc δ ε σ α} (h : Ensures P m Q E) {s s' : σ} {a : α} (hP : P s)
    (hm : m s = .ok (.ok a, s')) : Q a s' := h s _ s' hP hm

/-- The second postcondition speaks of the runs that fail. -/
theorem Ensures.error {m : Proc δ ε σ α} (h : Ensures P m Q E) {s s' : σ} {e : ε} (hP : P s)
    (hm : m s = .ok (.error e, s')) : E e s' := h s _ s' hP hm

/-- The rule of consequence. -/
theorem Ensures.mono {m : Proc δ ε σ α} (h : Ensures P' m Q' E') (hP : ∀ s, P s → P' s)
    (hQ : ∀ a s, Q' a s → Q a s) (hE : ∀ e s, E' e s → E e s) : Ensures P m Q E := by
  rintro s (e | a) s' hs hm
  · exact hE _ _ (h s _ s' (hP s hs) hm)
  · exact hQ _ _ (h s _ s' (hP s hs) hm)

/-- The rule of sequencing: what the first part ensures is what the second may assume, and a failure
of either ends the whole. -/
theorem Ensures.bind {m : Proc δ ε σ α} {f : α → Proc δ ε σ β} {Q' : β → σ → Prop}
    (hm : Ensures P m Q E) (hf : ∀ a, Ensures (Q a) (f a) Q' E) : Ensures P (m >>= f) Q' E := by
  intro s r s' hP h
  obtain ⟨a, s₁, h₁, h₂⟩ | ⟨e, h₁, rfl⟩ := bind_eq_ok.mp h
  · exact hf a s₁ r s' (hm.ok hP h₁) h₂
  · exact hm.error hP h₁

/-- What holds of the start alone may be assumed. -/
theorem Ensures.of_forall {m : Proc δ ε σ α}
    (h : ∀ s₀, P s₀ → Ensures (fun s => s = s₀) m Q E) : Ensures P m Q E :=
  fun s r s' hP hm => h s hP s r s' rfl hm

theorem Ensures.pure {a : α} (h : ∀ s, P s → Q a s) : Ensures P (pure a : Proc δ ε σ α) Q E := by
  intro s r s' hP hm
  obtain ⟨rfl, rfl⟩ := pure_eq_ok.mp hm
  exact h _ hP

theorem Ensures.fail {e : ε} (h : ∀ s, P s → E e s) :
    Ensures P (fail e : Proc δ ε σ α) Q E := by
  intro s r s' hP hm
  obtain ⟨rfl, rfl⟩ := fail_eq_ok.mp hm
  exact h _ hP

/-- A query may assume the value that it reads. -/
theorem Ensures.query {f : σ → Except δ α} (h : ∀ s a, P s → f s = .ok a → Q a s) :
    Ensures P (query f : Proc δ ε σ α) Q E := by
  intro s r s' hP hm
  obtain ⟨a, ha, rfl, rfl⟩ := query_eq_ok.mp hm
  exact h _ a hP ha

theorem Ensures.act {f : σ → α × σ} (h : ∀ s, P s → Q (f s).1 (f s).2) :
    Ensures P (act f : Proc δ ε σ α) Q E := by
  intro s r s' hP hm
  obtain ⟨rfl, rfl⟩ := act_eq_ok.mp hm
  exact h s hP

/-- An update may assume the state it comes to. -/
theorem Ensures.update {f : σ → Except δ σ} {Q : PUnit → σ → Prop}
    (h : ∀ s s', P s → f s = .ok s' → Q ⟨⟩ s') : Ensures P (update f : Proc δ ε σ PUnit) Q E := by
  intro s r s' hP hm
  obtain ⟨hs, rfl⟩ := update_eq_ok.mp hm
  exact h s s' hP hs

/-- After a guard its condition may be assumed, and in its failure the opposite. -/
theorem Ensures.guard {c : Prop} [Decidable c] {e : ε} {Q : PUnit → σ → Prop}
    (h : ∀ s, P s → c → Q ⟨⟩ s) (hE : ∀ s, P s → ¬ c → E e s) :
    Ensures P (guard c e : Proc δ ε σ PUnit) Q E := by
  unfold Proc.guard
  split_ifs with hc
  · exact .pure fun s hs => h s hs hc
  · exact .fail fun s hs => hE s hs hc

/-- After an `orFail` the value is known to be there. -/
theorem Ensures.orFail {o : Option α} {e : ε} (h : ∀ s a, P s → o = some a → Q a s)
    (hE : ∀ s, P s → o = none → E e s) : Ensures P (orFail o e : Proc δ ε σ α) Q E := by
  rcases o with _ | a
  · exact .fail fun s hs => hE s hs rfl
  · exact .pure fun s hs => h s a hs rfl

theorem Ensures.ofExcept {x : Except ε α} (h : ∀ s a, P s → x = .ok a → Q a s)
    (hE : ∀ s e, P s → x = .error e → E e s) : Ensures P (ofExcept x : Proc δ ε σ α) Q E := by
  rcases x with e | a
  · exact .fail fun s hs => hE s e hs rfl
  · exact .pure fun s hs => h s a hs rfl

/-- Each branch may assume what the test has decided. -/
theorem Ensures.ite {c : Prop} [Decidable c] {m n : Proc δ ε σ α} (hm : c → Ensures P m Q E)
    (hn : ¬ c → Ensures P n Q E) : Ensures P (if c then m else n) Q E := by
  split_ifs with hc
  · exact hm hc
  · exact hn hc

end Ensures

/-! ### From one state -/

section From

variable {Q R : α → σ → Prop} {E : ε → σ → Prop} {s : σ}

/-- From the state `s`, a return satisfies `Q` and a failure `E`. Its rules follow a procedure
step by step: what a step answers is known in the rest. -/
def From (s : σ) (m : Proc δ ε σ α) (Q : α → σ → Prop) (E : ε → σ → Prop) : Prop :=
  ∀ r s', m s = .ok (r, s') →
    match r with
    | .ok a => Q a s'
    | .error e => E e s'

/-- From a given state, the first postcondition speaks of the run that returns. -/
theorem From.ok {m : Proc δ ε σ α} (h : From s m Q E) {s' : σ} {a : α}
    (hm : m s = .ok (.ok a, s')) : Q a s' := h _ s' hm

/-- From a given state, the second postcondition speaks of the run that fails. -/
theorem From.error {m : Proc δ ε σ α} (h : From s m Q E) {s' : σ} {e : ε}
    (hm : m s = .ok (.error e, s')) : E e s' := h _ s' hm

/-- What holds from every state of a precondition holds from each of them. -/
theorem Ensures.from {P : σ → Prop} {m : Proc δ ε σ α} (h : Ensures P m Q E) (hs : P s) :
    From s m Q E := fun r s' hm => h s r s' hs hm

/-- The rule of consequence, from a given state. -/
theorem From.mono {m : Proc δ ε σ α} {Q' : α → σ → Prop} {E' : ε → σ → Prop} (h : From s m Q' E')
    (hQ : ∀ a s', Q' a s' → Q a s') (hE : ∀ e s', E' e s' → E e s') : From s m Q E := by
  rintro (e | a) s' hm
  · exact hE _ _ (h _ s' hm)
  · exact hQ _ _ (h _ s' hm)

theorem From.pure {a : α} (h : Q a s) : From s (pure a : Proc δ ε σ α) Q E := by
  intro r s' hm
  obtain ⟨rfl, rfl⟩ := pure_eq_ok.mp hm
  exact h

theorem From.fail {e : ε} (h : E e s) : From s (fail e : Proc δ ε σ α) Q E := by
  intro r s' hm
  obtain ⟨rfl, rfl⟩ := fail_eq_ok.mp hm
  exact h

variable {Q' : β → σ → Prop} {f : α → Proc δ ε σ β}

/-- The rule of sequencing, from a given state. -/
theorem From.bind {m : Proc δ ε σ α} (hm : From s m R E)
    (hf : ∀ a s', R a s' → From s' (f a) Q' E) : From s (m >>= f) Q' E := by
  intro r s' h
  obtain ⟨a, s₁, h₁, h₂⟩ | ⟨e, h₁, rfl⟩ := bind_eq_ok.mp h
  · exact hf a s₁ (hm.ok h₁) r s' h₂
  · exact hm.error h₁

/-- A part with a postcondition of its own for its failures. -/
theorem From.seq {m : Proc δ ε σ α} {F : ε → σ → Prop} (hm : From s m R F)
    (hF : ∀ e s', F e s' → E e s') (hf : ∀ a s', R a s' → From s' (f a) Q' E) :
    From s (m >>= f) Q' E :=
  From.bind (hm.mono (fun _ _ h => h) hF) hf

/-- A query in front is carried out at the given state. -/
theorem From.query {g : σ → Except δ α} (hf : ∀ a, g s = .ok a → From s (f a) Q' E) :
    From s (query g >>= f) Q' E := by
  refine From.bind (R := fun a s' => s' = s ∧ g s = .ok a) ?_ ?_
  · intro r s' hm
    obtain ⟨a, ha, rfl, rfl⟩ := query_eq_ok.mp hm
    exact ⟨rfl, ha⟩
  · rintro a s' ⟨rfl, ha⟩
    exact hf a ha

/-- A computation at the end of a procedure. -/
theorem From.lift {x : Except δ α} (hQ : ∀ a, x = .ok a → Q a s) :
    From s (lift x : Proc δ ε σ α) Q E := by
  intro r s' hm
  obtain ⟨a, ha, rfl, rfl⟩ := query_eq_ok.mp hm
  exact hQ a ha

/-- A step that always answers, in front, is carried out at the given state. -/
theorem From.act {g : σ → α × σ} (hf : From (g s).2 (f (g s).1) Q' E) :
    From s (act g >>= f) Q' E := by
  refine From.bind (R := fun a s' => a = (g s).1 ∧ s' = (g s).2) ?_ ?_
  · intro r s' hm
    obtain ⟨rfl, rfl⟩ := act_eq_ok.mp hm
    exact ⟨rfl, rfl⟩
  · rintro a s' ⟨rfl, rfl⟩
    exact hf

/-- A value expected in front is taken from where it is, or its absence ends the run there. -/
theorem From.orFail {o : Option α} {e : ε} (hE : o = none → E e s)
    (hf : ∀ a, o = some a → From s (f a) Q' E) : From s (orFail o e >>= f) Q' E := by
  refine From.bind (R := fun a s' => s' = s ∧ o = some a) ?_ ?_
  · intro r s' hm
    obtain ⟨rfl, ⟨a, ha, rfl⟩ | ⟨hn, rfl⟩⟩ := orFail_eq_ok.mp hm
    · exact ⟨rfl, ha⟩
    · exact hE hn
  · rintro a s' ⟨rfl, ha⟩
    exact hf a ha

variable {f : PUnit → Proc δ ε σ β}

/-- An update in front moves the given state. -/
theorem From.update {g : σ → Except δ σ} (hf : ∀ s', g s = .ok s' → From s' (f ⟨⟩) Q' E) :
    From s (update g >>= f) Q' E := by
  refine From.bind (R := fun _ s' => g s = .ok s') ?_ fun _ s' h => hf s' h
  intro r s' hm
  obtain ⟨hg, rfl⟩ := update_eq_ok.mp hm
  exact hg

/-- A guard in front is decided at the given state. -/
theorem From.guard {c : Prop} [Decidable c] {e : ε} (hE : ¬ c → E e s)
    (hf : c → From s (f ⟨⟩) Q' E) : From s (guard c e >>= f) Q' E := by
  refine From.bind (R := fun _ s' => s' = s ∧ c) ?_ ?_
  · intro r s' hm
    obtain ⟨rfl, ⟨hc, rfl⟩ | ⟨hc, rfl⟩⟩ := guard_eq_ok.mp hm
    · exact ⟨rfl, hc⟩
    · exact hE hc
  · rintro a s' ⟨rfl, hc⟩
    exact hf hc

end From

/-! ### A relation between the first state and the last -/

section Respects

variable {R : σ → σ → Prop} [IsPreorder σ R]

/-- However the procedure ends, its last state is related to its first. -/
def Respects (R : σ → σ → Prop) (m : Proc δ ε σ α) : Prop :=
  ∀ s r s', m s = .ok (r, s') → R s s'

/-- Sequencing respects what both parts respect, as the relation is transitive. -/
theorem Respects.bind {m : Proc δ ε σ α} {f : α → Proc δ ε σ β} (hm : Respects R m)
    (hf : ∀ a, Respects R (f a)) : Respects R (m >>= f) := by
  intro s r s' h
  obtain ⟨a, s₁, h₁, h₂⟩ | ⟨e, h₁, rfl⟩ := bind_eq_ok.mp h
  · exact trans_of R (hm s _ s₁ h₁) (hf a s₁ r s' h₂)
  · exact hm s _ s' h₁

theorem Respects.pure (a : α) : Respects R (pure a : Proc δ ε σ α) := by
  intro s r s' h
  obtain ⟨rfl, rfl⟩ := pure_eq_ok.mp h
  exact refl_of R _

theorem Respects.fail (e : ε) : Respects R (fail e : Proc δ ε σ α) := by
  intro s r s' h
  obtain ⟨rfl, rfl⟩ := fail_eq_ok.mp h
  exact refl_of R _

/-- A query respects every reflexive relation, since it moves nothing. -/
theorem Respects.query (f : σ → Except δ α) : Respects R (query f : Proc δ ε σ α) := by
  intro s r s' h
  obtain ⟨a, -, rfl, rfl⟩ := query_eq_ok.mp h
  exact refl_of R _

omit [IsPreorder σ R] in

/-- A step respects the relation where every state is related to the one it goes to. -/
theorem Respects.act {f : σ → α × σ} (hf : ∀ s, R s (f s).2) :
    Respects R (act f : Proc δ ε σ α) := by
  intro s r s' h
  obtain ⟨rfl, rfl⟩ := act_eq_ok.mp h
  exact hf s

omit [IsPreorder σ R] in

/-- An update respects the relation where its results are related to where it started. -/
theorem Respects.update {f : σ → Except δ σ} (hf : ∀ s s', f s = .ok s' → R s s') :
    Respects R (update f : Proc δ ε σ PUnit) := by
  intro s r s' h
  obtain ⟨hs, rfl⟩ := update_eq_ok.mp h
  exact hf s s' hs

omit [IsPreorder σ R] in
theorem Respects.ite {c : Prop} [Decidable c] {m n : Proc δ ε σ α} (hm : Respects R m)
    (hn : Respects R n) : Respects R (if c then m else n) := by
  split_ifs
  · exact hm
  · exact hn

theorem Respects.guard (c : Prop) [Decidable c] (e : ε) :
    Respects R (guard c e : Proc δ ε σ PUnit) :=
  .ite (.pure _) (.fail e)

theorem Respects.orFail (o : Option α) (e : ε) : Respects R (orFail o e : Proc δ ε σ α) := by
  rcases o with _ | a
  · exact .fail e
  · exact .pure a

theorem Respects.ofExcept (x : Except ε α) : Respects R (ofExcept x : Proc δ ε σ α) := by
  rcases x with e | a
  · exact .fail e
  · exact .pure a

end Respects

/-! ### Simulation -/

section Sim

variable (A : σ → σ → Prop) (bad : ε → Prop)

/-- From states related by `A` both runs give the same answer and related states, unless the first
aborts or ends badly. -/
def Sim (m : Proc δ ε σ α) : Prop :=
  ∀ s t r s', A s t → m s = .ok (r, s') → (∀ e, r = .error e → ¬ bad e) →
    ∃ t', m t = .ok (r, t') ∧ A s' t'

variable {A bad}

/-- Sequencing: as long as the first parts agree, the second ones start from states that cannot be
told apart. -/
theorem Sim.bind {m : Proc δ ε σ α} {f : α → Proc δ ε σ β} (hm : Sim A bad m)
    (hf : ∀ a, Sim A bad (f a)) : Sim A bad (m >>= f) := by
  intro s t r s' hA h hok
  obtain ⟨a, s₁, h₁, h₂⟩ | ⟨e, h₁, rfl⟩ := bind_eq_ok.mp h
  · obtain ⟨t₁, ht₁, hA₁⟩ := hm s t _ s₁ hA h₁ (by simp)
    obtain ⟨t', ht', hA'⟩ := hf a s₁ t₁ r s' hA₁ h₂ hok
    exact ⟨t', bind_eq_ok.mpr (.inl ⟨a, t₁, ht₁, ht'⟩), hA'⟩
  · obtain ⟨t', ht', hA'⟩ := hm s t _ s' hA h₁ (fun e' he' => hok e' (by simpa using he'))
    exact ⟨t', bind_eq_ok.mpr (.inr ⟨e, ht', rfl⟩), hA'⟩

theorem Sim.pure (a : α) : Sim A bad (pure a : Proc δ ε σ α) := by
  intro s t r s' hA h _
  obtain ⟨rfl, rfl⟩ := pure_eq_ok.mp h
  exact ⟨t, pure_run a t, hA⟩

theorem Sim.fail (e : ε) : Sim A bad (fail e : Proc δ ε σ α) := by
  intro s t r s' hA h _
  obtain ⟨rfl, rfl⟩ := fail_eq_ok.mp h
  exact ⟨t, rfl, hA⟩

/-- A query agrees where it reads the same from both states. -/
theorem Sim.query {f : σ → Except δ α} (hf : ∀ s t a, A s t → f s = .ok a → f t = .ok a) :
    Sim A bad (query f : Proc δ ε σ α) := by
  intro s t r s' hA h _
  obtain ⟨a, ha, rfl, rfl⟩ := query_eq_ok.mp h
  exact ⟨t, query_eq_ok.mpr ⟨a, hf _ _ _ hA ha, rfl, rfl⟩, hA⟩

/-- A step agrees where it answers the same and leaves states that cannot be told apart. -/
theorem Sim.act {f : σ → α × σ} (hf : ∀ s t, A s t → (f s).1 = (f t).1 ∧ A (f s).2 (f t).2) :
    Sim A bad (act f : Proc δ ε σ α) := by
  intro s t r s' hA h _
  obtain ⟨rfl, rfl⟩ := act_eq_ok.mp h
  obtain ⟨h1, h2⟩ := hf s t hA
  exact ⟨(f t).2, by rw [h1]; rfl, h2⟩

/-- An update agrees where it can be made on the second state whenever it can on the first. -/
theorem Sim.update {f : σ → Except δ σ}
    (hf : ∀ s t s', A s t → f s = .ok s' → ∃ t', f t = .ok t' ∧ A s' t') :
    Sim A bad (update f : Proc δ ε σ PUnit) := by
  intro s t r s' hA h _
  obtain ⟨hs, rfl⟩ := update_eq_ok.mp h
  obtain ⟨t', ht, hA'⟩ := hf s t s' hA hs
  exact ⟨t', update_eq_ok.mpr ⟨ht, rfl⟩, hA'⟩

theorem Sim.guard (c : Prop) [Decidable c] (e : ε) :
    Sim A bad (guard c e : Proc δ ε σ PUnit) := by
  unfold Proc.guard
  split_ifs
  · exact .pure _
  · exact .fail e

theorem Sim.orFail (o : Option α) (e : ε) : Sim A bad (orFail o e : Proc δ ε σ α) := by
  rcases o with _ | a
  · exact .fail e
  · exact .pure a

theorem Sim.ofExcept (x : Except ε α) : Sim A bad (ofExcept x : Proc δ ε σ α) := by
  rcases x with e | a
  · exact .fail e
  · exact .pure a

theorem Sim.ite {c : Prop} [Decidable c] {m n : Proc δ ε σ α} (hm : Sim A bad m)
    (hn : Sim A bad n) : Sim A bad (if c then m else n) := by
  split_ifs
  · exact hm
  · exact hn

end Sim

section Carries

variable {A B C : σ → σ → Prop}

/-- From states related by `A` both runs give the same answer, and where it is a value the states
are related by `B`, unless the first run aborts. -/
def Carries (A B : σ → σ → Prop) (m : Proc δ ε σ α) : Prop :=
  ∀ s t r s', A s t → m s = .ok (r, s') → ∃ t', m t = .ok (r, t') ∧ ∀ a, r = .ok a → B s' t'

/-- Sequencing carries a relation to the last one, through the one in the middle. -/
theorem Carries.bind {m : Proc δ ε σ α} {f : α → Proc δ ε σ β} (hm : Carries A B m)
    (hf : ∀ a, Carries B C (f a)) : Carries A C (m >>= f) := by
  intro s t r s' hA h
  obtain ⟨a, s₁, h₁, h₂⟩ | ⟨e, h₁, rfl⟩ := bind_eq_ok.mp h
  · obtain ⟨t₁, ht₁, hB⟩ := hm s t _ s₁ hA h₁
    obtain ⟨t', ht', hC⟩ := hf a s₁ t₁ r s' (hB a rfl) h₂
    exact ⟨t', bind_eq_ok.mpr (.inl ⟨a, t₁, ht₁, ht'⟩), hC⟩
  · obtain ⟨t', ht', -⟩ := hm s t _ s' hA h₁
    exact ⟨t', bind_eq_ok.mpr (.inr ⟨e, ht', rfl⟩), by simp⟩

theorem Carries.pure (a : α) : Carries A A (pure a : Proc δ ε σ α) := by
  intro s t r s' hA h
  obtain ⟨rfl, rfl⟩ := pure_eq_ok.mp h
  exact ⟨t, pure_run a t, fun _ _ => hA⟩

/-- A query leaves the relation where it was. -/
theorem Carries.query {f : σ → Except δ α} (hf : ∀ s t a, A s t → f s = .ok a → f t = .ok a) :
    Carries A A (query f : Proc δ ε σ α) := by
  intro s t r s' hA h
  obtain ⟨a, ha, rfl, rfl⟩ := query_eq_ok.mp h
  exact ⟨t, query_eq_ok.mpr ⟨a, hf _ _ _ hA ha, rfl, rfl⟩, fun _ _ => hA⟩

/-- A step carries the relation to the one that its results are in. -/
theorem Carries.act {f : σ → α × σ} (hf : ∀ s t, A s t → (f s).1 = (f t).1 ∧ B (f s).2 (f t).2) :
    Carries A B (act f : Proc δ ε σ α) := by
  intro s t r s' hA h
  obtain ⟨rfl, rfl⟩ := act_eq_ok.mp h
  obtain ⟨h1, h2⟩ := hf s t hA
  exact ⟨(f t).2, by rw [h1]; rfl, fun _ _ => h2⟩

/-- An update carries the relation to the one that its results are in, if the second state allows it
whenever the first does. -/
theorem Carries.update {f : σ → Except δ σ}
    (hf : ∀ s t s', A s t → f s = .ok s' → ∃ t', f t = .ok t' ∧ B s' t') :
    Carries A B (update f : Proc δ ε σ PUnit) := by
  intro s t r s' hA h
  obtain ⟨hs, rfl⟩ := update_eq_ok.mp h
  obtain ⟨t', ht, hB⟩ := hf s t s' hA hs
  exact ⟨t', update_eq_ok.mpr ⟨ht, rfl⟩, fun _ _ => hB⟩

theorem Carries.guard (c : Prop) [Decidable c] (e : ε) :
    Carries A A (guard c e : Proc δ ε σ PUnit) := by
  unfold Proc.guard
  split_ifs
  · exact .pure _
  · intro s t r s' _ h
    obtain ⟨rfl, rfl⟩ := fail_eq_ok.mp h
    exact ⟨t, rfl, by simp⟩

theorem Carries.ite {c : Prop} [Decidable c] {m n : Proc δ ε σ α} (hm : Carries A B m)
    (hn : Carries A B n) : Carries A B (if c then m else n) := by
  split_ifs
  · exact hm
  · exact hn

end Carries

end Proc

end Lib
