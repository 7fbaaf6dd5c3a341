import Mathlib.Data.List.Nodup
import Mathlib.Data.Finset.Card
import Mathlib.Data.Fintype.Card
import Mathlib.Logic.Function.Basic

/-!
# Lists threaded through a table

The cells of a table carry a link to the next cell of their list, and each list has a head outside
the table. `Chain` is the path from a head to the end; `Lists` says that the chain of every head
visits exactly the cells it owns. Taking a cell out of its list and putting it in front of another
keep this.

`Chain.unique` and `Chain.nodup` say that a path is determined by its head and visits no cell twice,
so a walk along it ends within the number of cells (`length_le`). The operations are those of a
singly linked list: the first cell is taken out by moving the head (`Lists.detachFirst`), a later
one by moving the link of the cell before it (`detachNext`), and a cell that is out is put in front
of a list (`attach`). Each changes one head and one link, and the other lists keep their chains by
`Chain.congr` and `Chain.update`. Who owns a cell, and which cells are out, are parameters, so that
a cell may be owned before it is linked.
-/

namespace Lib

/-- The cells from a link on, to the end of the list. -/
inductive Chain (link : ℕ → Option (Option ℕ)) : Option ℕ → List ℕ → Prop
  | nil : Chain link none []
  | cons {i l is} (hi : link i = some l) (h : Chain link l is) : Chain link (some i) (i :: is)

namespace Chain

variable {link link' : ℕ → Option (Option ℕ)} {h l : Option ℕ} {is js : List ℕ} {i : ℕ}

theorem unique (h₁ : Chain link h is) (h₂ : Chain link h js) : is = js := by
  induction h₁ generalizing js with
  | nil =>
    cases h₂
    rfl
  | cons hi _ ih =>
    cases h₂ with
    | cons hi' h₂ =>
      obtain rfl := Option.some.inj (hi.symm.trans hi')
      rw [ih h₂]

/-- The rest of a chain after one of its cells. -/
theorem split (hc : Chain link h (is ++ i :: js)) : ∃ l, link i = some l ∧ Chain link l js := by
  induction is generalizing h with
  | nil =>
    cases hc with
    | cons hi hrest => exact ⟨_, hi, hrest⟩
  | cons x is ih =>
    cases hc with
    | cons _ hrest => exact ih hrest

/-- A chain that came back to a cell would not end. -/
theorem nodup (hc : Chain link h is) : is.Nodup := by
  induction hc with
  | nil => exact List.nodup_nil
  | @cons i l is hi hrest ih =>
    refine List.nodup_cons.mpr ⟨fun hmem => ?_, ih⟩
    obtain ⟨xs, ys, rfl⟩ := List.append_of_mem hmem
    obtain ⟨l', hi', hrest'⟩ := hrest.split
    obtain rfl := Option.some.inj (hi.symm.trans hi')
    have := congrArg List.length (hrest.unique hrest')
    simp only [List.length_append, List.length_cons] at this
    omega

theorem congr (hc : Chain link h is) (hlink : ∀ i ∈ is, link' i = link i) : Chain link' h is := by
  induction hc with
  | nil => exact .nil
  | cons hi _ ih =>
    refine .cons ((hlink _ List.mem_cons_self).trans hi) (ih fun j hj => ?_)
    exact hlink j (List.mem_cons_of_mem _ hj)

/-- Changing a cell that is not visited. -/
theorem update (hc : Chain link h is) (hi : i ∉ is) (x : Option (Option ℕ)) :
    Chain (Function.update link i x) h is := by
  refine hc.congr fun j hj => ?_
  have hne : j ≠ i := fun heq => hi (heq ▸ hj)
  exact Function.update_of_ne hne x link

/-- Leaving out the cell after `i`. -/
theorem skip {t : ℕ} (hc : Chain link h (is ++ i :: t :: js)) (ht : link t = some l) :
    Chain (Function.update link i (some l)) h (is ++ i :: js) := by
  have hnd := hc.nodup
  induction is generalizing h with
  | nil =>
    cases hc with
    | cons _ hrest =>
      cases hrest with
      | cons ht' hrest =>
        obtain rfl := Option.some.inj (ht.symm.trans ht')
        refine .cons (Function.update_self i _ _) (hrest.update ?_ _)
        simp only [List.nil_append, List.nodup_cons, List.mem_cons, not_or] at hnd
        exact hnd.1.2
  | cons x is ih =>
    cases hc with
    | cons hx hrest =>
      rw [List.cons_append, List.nodup_cons] at hnd
      have hne : x ≠ i := by
        rintro rfl
        exact hnd.1 (by simp)
      exact .cons (by rw [Function.update_of_ne hne, hx]) (ih hrest hnd.2)

theorem length_le {n : ℕ} (hc : Chain link h is) (hlt : ∀ i ∈ is, i < n) : is.length ≤ n := by
  have hcard := Finset.card_le_card (s := is.toFinset) (t := Finset.range n) fun i hi =>
    Finset.mem_range.mpr (hlt i (List.mem_toFinset.mp hi))
  rwa [List.toFinset_card_of_nodup hc.nodup, Finset.card_range] at hcard

end Chain

/-- Every list visits exactly the cells it owns, those that are out apart. -/
def Lists (head : ℕ → Option (Option ℕ)) (owner : ℕ → Option ℕ) (link : ℕ → Option (Option ℕ))
    (out : ℕ → Prop) : Prop :=
  ∀ a h, head a = some h → ∃ is, Chain link h is ∧ ∀ i, i ∈ is ↔ owner i = some a ∧ ¬ out i

namespace Lists

variable {head : ℕ → Option (Option ℕ)} {owner : ℕ → Option ℕ} {link : ℕ → Option (Option ℕ)}
  {t a b : ℕ} {h l : Option ℕ}

/-- Take out the first cell of a list. -/
theorem detachFirst (hl : Lists head owner link fun _ => False) (hh : head a = some (some t))
    (hown : owner t = some a) (ht : link t = some l) :
    Lists (Function.update head a (some l)) owner link (· = t) := by
  intro c h hc
  by_cases hca : c = a
  · subst hca
    rw [Function.update_self] at hc
    obtain rfl := Option.some.inj hc
    obtain ⟨is, hchain, hmem⟩ := hl c _ hh
    have hnd := hchain.nodup
    cases hchain with
    | @cons _ l' is hi hrest =>
      obtain rfl := Option.some.inj (ht.symm.trans hi)
      refine ⟨is, hrest, fun i => ?_⟩
      have hi := hmem i
      rw [List.mem_cons, not_false_eq_true, and_true] at hi
      constructor
      · intro his
        refine ⟨hi.mp (.inr his), ?_⟩
        rintro rfl
        exact (List.nodup_cons.mp hnd).1 his
      · rintro ⟨ho, hne⟩
        exact (hi.mpr ho).resolve_left hne
  · rw [Function.update_of_ne hca] at hc
    obtain ⟨is, hchain, hmem⟩ := hl c h hc
    refine ⟨is, hchain, fun i => (hmem i).trans ?_⟩
    rw [not_false_eq_true, and_true, iff_self_and]
    rintro ho rfl
    exact hca (Option.some.inj (ho.symm.trans hown))

/-- Take out a cell behind another. -/
theorem detachNext (hl : Lists head owner link fun _ => False) {is js : List ℕ} {p : ℕ}
    (hh : head a = some h) (hchain : Chain link h (is ++ p :: t :: js)) (hown : owner t = some a)
    (ht : link t = some l) :
    Lists head owner (Function.update link p (some l)) (· = t) := by
  have hp : owner p = some a := by
    obtain ⟨ks, hks, hmem⟩ := hl a h hh
    obtain rfl := hks.unique hchain
    exact ((hmem p).mp (by simp)).1
  intro c h' hc
  obtain ⟨ks, hks, hmem⟩ := hl c h' hc
  by_cases hca : c = a
  -- the list of the owner loses the element, the others are as they were
  · subst hca
    obtain rfl := Option.some.inj (hh.symm.trans hc)
    obtain rfl := hks.unique hchain
    refine ⟨is ++ p :: js, hchain.skip ht, fun i => ?_⟩
    have hnd : t ∉ is ++ p :: js := by
      have hperm : (is ++ p :: t :: js).Perm (t :: (is ++ p :: js)) := by
        rw [List.append_cons is p (t :: js), List.append_cons is p js]
        exact List.perm_middle
      exact (List.nodup_cons.mp (hperm.nodup_iff.mp hchain.nodup)).1
    have hi := hmem i
    rw [not_false_eq_true, and_true] at hi
    constructor
    · intro his
      refine ⟨hi.mp ?_, fun hit => hnd (hit ▸ his)⟩
      rcases List.mem_append.mp his with his | his
      · exact List.mem_append_left _ his
      · rcases List.mem_cons.mp his with rfl | his
        · simp
        · simp [his]
    · rintro ⟨ho, hne⟩
      have his := hi.mpr ho
      simp only [List.mem_append, List.mem_cons] at his ⊢
      tauto
  · refine ⟨ks, hks.update (fun hpk => ?_) _, fun i => (hmem i).trans ?_⟩
    · exact hca (Option.some.inj (((hmem p).mp hpk).1.symm.trans hp))
    · rw [not_false_eq_true, and_true, iff_self_and]
      rintro ho rfl
      exact hca (Option.some.inj (ho.symm.trans hown))

/-- Put a cell that is out in front of a list. -/
theorem attach (hl : Lists head owner link (· = t)) (hh : head b = some h) :
    Lists (Function.update head b (some (some t))) (Function.update owner t (some b))
      (Function.update link t (some h)) fun _ => False := by
  intro c h' hc
  by_cases hcb : c = b
  · subst hcb
    rw [Function.update_self] at hc
    obtain rfl := Option.some.inj hc
    obtain ⟨is, hchain, hmem⟩ := hl c h hh
    have ht : t ∉ is := fun his => ((hmem t).mp his).2 rfl
    refine ⟨t :: is, .cons (Function.update_self _ _ _) (hchain.update ht _), fun i => ?_⟩
    rw [List.mem_cons, not_false_eq_true, and_true]
    by_cases hit : i = t
    · simp [hit]
    · rw [Function.update_of_ne hit, hmem i]
      simp [hit]
  · rw [Function.update_of_ne hcb] at hc
    obtain ⟨is, hchain, hmem⟩ := hl c h' hc
    have ht : t ∉ is := fun his => ((hmem t).mp his).2 rfl
    refine ⟨is, hchain.update ht _, fun i => ?_⟩
    rw [hmem i, not_false_eq_true, and_true]
    by_cases hit : i = t
    · simp [hit, Ne.symm hcb]
    · simp [hit]

/-- A new cell is out of every list. -/
theorem newCell (hl : Lists head owner link fun _ => False) (ht : owner t = none) :
    Lists head owner link (· = t) := by
  intro c h hc
  obtain ⟨is, hchain, hmem⟩ := hl c h hc
  refine ⟨is, hchain, fun i => (hmem i).trans ?_⟩
  rw [not_false_eq_true, and_true, iff_self_and]
  rintro ho rfl
  rw [ht] at ho
  cases ho

theorem congr {head' : ℕ → Option (Option ℕ)} {owner' : ℕ → Option ℕ}
    {link' : ℕ → Option (Option ℕ)} {out : ℕ → Prop} (hl : Lists head owner link out)
    (hh : ∀ a h, head' a = some h → head a = some h ∨ h = none ∧ ∀ i, owner i ≠ some a)
    (ho : ∀ i, owner' i = owner i) (hk : ∀ i, link' i = link i) : Lists head' owner' link' out := by
  obtain rfl : owner' = owner := funext ho
  obtain rfl : link' = link := funext hk
  intro a h ha
  obtain hold | ⟨rfl, hno⟩ := hh a h ha
  · exact hl a h hold
  · exact ⟨[], .nil, fun i => by simp [hno i]⟩

end Lists

end Lib
