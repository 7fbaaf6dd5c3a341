import Mathlib.Data.List.Basic
import Mathlib.Order.Nat
import Mathlib.Tactic.SplitIfs

/-!
# Spans in a circular buffer

A span is an offset and a length. Spans handed out oldest first lie end to end, and start again at
zero when one would pass the end of the buffer; releasing takes them from the front. What is free
is read off two numbers, where the next span would go and where the oldest one lies. Once the spans
have started again, the two are equal exactly when nothing is free: a span of no bytes is then the
only one that can still be placed.

`Tiles a b spans` lays spans end to end from `a` to `b`. `Laid` is the state of the whole buffer:
either one run of spans, or two, the older one up to some point before the end and the newer one
from zero on. The lemmas are about the three things that happen to it: a span is placed behind the
last one or at zero (`Laid.snoc`), spans are released from the front (`Laid.drop`), and the first
span comes to an empty buffer (`Laid.singleton`). All spans lie inside the buffer (`bounds`).

`Reserved` is for a caller that asks for room before it knows the pieces: a budget of bytes can be
placed piece by piece, in whatever pieces it comes (`Reserved.place`).
-/

namespace Lib

/-- Spans laid end to end from `a` to `b`. -/
def Tiles : ℕ → List (ℕ × ℕ) → ℕ → Prop
  | a, [], b => a = b
  | a, x :: xs, b => x.1 = a ∧ Tiles (a + x.2) xs b

namespace Tiles

theorem le {xs : List (ℕ × ℕ)} : ∀ {a b : ℕ}, Tiles a xs b → a ≤ b := by
  induction xs with
  | nil => exact fun h => le_of_eq h
  | cons x xs ih => exact fun h => le_trans (Nat.le_add_right _ _) (ih h.2)

theorem bounds {xs : List (ℕ × ℕ)} : ∀ {a b : ℕ}, Tiles a xs b → ∀ x ∈ xs,
    a ≤ x.1 ∧ x.1 + x.2 ≤ b := by
  induction xs with
  | nil => exact fun _ x hx => absurd hx List.not_mem_nil
  | cons y ys ih =>
    rintro a b ⟨rfl, h⟩ x hx
    obtain rfl | hx := List.mem_cons.mp hx
    · exact ⟨le_rfl, h.le⟩
    · have := ih h x hx
      exact ⟨by omega, this.2⟩

theorem one (n : ℕ) : Tiles 0 [(0, n)] n := ⟨rfl, Nat.zero_add n⟩

theorem snoc {xs : List (ℕ × ℕ)} : ∀ {a b : ℕ}, Tiles a xs b → ∀ n,
    Tiles a (xs ++ [(b, n)]) (b + n) := by
  induction xs with
  | nil =>
    rintro a b rfl n
    exact ⟨rfl, rfl⟩
  | cons x xs ih => exact fun h n => ⟨h.1, ih h.2 n⟩

theorem drop {xs : List (ℕ × ℕ)} : ∀ {a b : ℕ}, Tiles a xs b → ∀ n, ∃ a', a ≤ a' ∧
    Tiles a' (xs.drop n) b := by
  induction xs with
  | nil => exact fun {a} _ h n => ⟨a, le_rfl, by rwa [List.drop_nil]⟩
  | cons x xs ih =>
    intro a b h n
    cases n with
    | zero => exact ⟨a, le_rfl, h⟩
    | succ n =>
      obtain ⟨a', hle, h'⟩ := ih h.2 n
      exact ⟨a', by omega, h'⟩

/-- Spans that cover something are not all empty. -/
theorem exists_of_lt {xs : List (ℕ × ℕ)} : ∀ {a b : ℕ}, Tiles a xs b → a < b →
    ∃ x ∈ xs, x.2 ≠ 0 := by
  induction xs with
  | nil => exact fun h hlt => absurd h (Nat.ne_of_lt hlt)
  | cons x xs ih =>
    intro a b h hlt
    by_cases hx : x.2 = 0
    · obtain ⟨y, hy, hne⟩ := ih h.2 (by omega)
      exact ⟨y, List.mem_cons_of_mem _ hy, hne⟩
    · exact ⟨x, List.mem_cons_self, hx⟩

end Tiles

/-- The spans in use, oldest first, with `next` where the last one ends: end to end, or in two
parts when they have started again at zero. -/
inductive Laid (cap : ℕ) : List (ℕ × ℕ) → ℕ → Prop
  | straight {a next : ℕ} {xs : List (ℕ × ℕ)} (hxs : Tiles a xs next) (hcap : next ≤ cap) :
      Laid cap xs next
  | wrapped {a b next : ℕ} {xs ys : List (ℕ × ℕ)} (hne : xs ≠ []) (hxs : Tiles a xs b)
      (hcap : b ≤ cap) (hys : Tiles 0 ys next) (hpos : 0 < next) (hle : next ≤ a) :
      Laid cap (xs ++ ys) next

/-- Where a span of `n` bytes goes, after the last one or at zero, with the oldest one at `live`. -/
def place (cap live next n : ℕ) : Option ℕ :=
  if live ≤ next then
    if cap < next + n then if live < n then none else some 0 else some next
  else if live < next + n then none else some next

namespace Laid

variable {cap next : ℕ} {l : List (ℕ × ℕ)}

theorem next_le (h : Laid cap l next) : next ≤ cap := by
  cases h with
  | straight _ hcap => exact hcap
  | wrapped _ hxs hcap _ _ hle => exact hle.trans (hxs.le.trans hcap)

theorem bounds (h : Laid cap l next) : ∀ x ∈ l, x.1 + x.2 ≤ cap := by
  intro x hx
  cases h with
  | straight hxs hcap => exact (hxs.bounds x hx).2.trans hcap
  | wrapped _ hxs hcap hys _ hle =>
    obtain hx | hx := List.mem_append.mp hx
    · exact (hxs.bounds x hx).2.trans hcap
    · exact (hys.bounds x hx).2.trans (hle.trans (hxs.le.trans hcap))

theorem singleton {n : ℕ} (h : n ≤ cap) : Laid cap [(0, n)] n := .straight (.one n) h

/-- Releasing from the front. -/
theorem drop (h : Laid cap l next) (n : ℕ) : Laid cap (l.drop n) next := by
  cases h with
  | straight hxs hcap =>
    obtain ⟨a', -, hdrop⟩ := hxs.drop n
    exact .straight hdrop hcap
  | @wrapped a b _ xs ys hne hxs hcap hys hpos hle =>
    rw [List.drop_append]
    obtain hlt | hge := lt_or_ge n xs.length
    · obtain ⟨a', hle', hdrop⟩ := hxs.drop n
      have hrest : xs.drop n ≠ [] := by
        rw [ne_eq, List.drop_eq_nil_iff]
        omega
      rw [Nat.sub_eq_zero_of_le hlt.le, List.drop_zero]
      exact .wrapped hrest hdrop hcap hys hpos (hle.trans hle')
    · obtain ⟨a', -, hdrop⟩ := hys.drop (n - xs.length)
      rw [List.drop_eq_nil_of_le hge, List.nil_append]
      exact .straight hdrop (hle.trans (hxs.le.trans hcap))

/-- A placed span is laid after the others and clear of them. In a full buffer this needs it to be
empty. -/
theorem snoc {live n at_ : ℕ} (h : Laid cap l next) (hlive : l.head?.map Prod.fst = some live)
    (hat : place cap live next n = some at_)
    (hfull : next = live → (∃ x ∈ l, x.2 ≠ 0) → n = 0) :
    Laid cap (l ++ [(at_, n)]) (at_ + n) ∧ at_ + n ≤ cap ∧
      ∀ x ∈ l, x.1 + x.2 ≤ at_ ∨ at_ + n ≤ x.1 := by
  unfold place at hat
  cases h with
  | @straight a _ _ hxs hcap =>
    have ha : a = live := by
      cases l with
      | nil => cases hlive
      | cons x xs => exact hxs.1.symm.trans (Option.some.inj hlive)
    subst ha
    have hle := hxs.le
    rw [if_pos hle] at hat
    split_ifs at hat with hover hroom
    · -- the spans start again at zero
      obtain rfl := Option.some.inj hat
      have hne : l ≠ [] := by
        rintro rfl
        cases hlive
      rw [Nat.zero_add]
      refine ⟨.wrapped hne hxs hcap (.one n) (by omega) (by omega),
        by omega, fun x hx => .inr ?_⟩
      have := (hxs.bounds x hx).1
      omega
    · obtain rfl := Option.some.inj hat
      exact ⟨.straight (hxs.snoc n) (by omega), by omega, fun x hx => .inl (hxs.bounds x hx).2⟩
  | @wrapped a b _ xs ys hne hxs hcap hys hpos hle =>
    have ha : a = live := by
      cases xs with
      | nil => exact absurd rfl hne
      | cons x xs => exact hxs.1.symm.trans (Option.some.inj hlive)
    subst ha
    have hab := hxs.le
    have hn : next + n ≤ a ∧ at_ = next := by
      split_ifs at hat with hge hover hroom
      · have hzero := hfull (by omega) (by
          obtain ⟨y, hy, hne⟩ := hys.exists_of_lt hpos
          exact ⟨y, List.mem_append_right _ hy, hne⟩)
        omega
      · have hzero := hfull (by omega) (by
          obtain ⟨y, hy, hne⟩ := hys.exists_of_lt hpos
          exact ⟨y, List.mem_append_right _ hy, hne⟩)
        exact ⟨by omega, (Option.some.inj hat).symm⟩
      · exact ⟨by omega, (Option.some.inj hat).symm⟩
    obtain ⟨hroom, rfl⟩ := hn
    rw [List.append_assoc]
    refine ⟨.wrapped hne hxs hcap (hys.snoc n) (by omega) hroom, by omega, fun x hx => ?_⟩
    obtain hx | hx := List.mem_append.mp hx
    · exact .inr (hroom.trans (hxs.bounds x hx).1)
    · exact .inl (hys.bounds x hx).2

end Laid

/-! ### Reserving -/

/-- Spans of `budget` bytes in all find their place, whatever their number and order. -/
def Reserved (cap live next budget : ℕ) : Prop :=
  live ≤ next ∧ (next + budget ≤ cap ∨ budget ≤ live) ∨ next < live ∧ next + budget ≤ live

/-- A span of the budget is placed, and the rest of the budget stays reserved. -/
theorem Reserved.place {cap live next budget n : ℕ} (h : Reserved cap live next budget)
    (hn : n ≤ budget) (hlive : live ≤ cap) : ∃ at_, Lib.place cap live next n = some at_ ∧
      at_ ≤ next ∧ at_ + n ≤ cap ∧ Reserved cap live (at_ + n) (budget - n) := by
  unfold Reserved at h
  unfold Lib.place
  by_cases hle : live ≤ next
  · rw [if_pos hle]
    by_cases hover : cap < next + n
    · -- nothing fits at the end, so the budget was reserved at zero
      rw [if_pos hover, if_neg (by omega)]
      exact ⟨0, rfl, by omega, by omega, by unfold Reserved; omega⟩
    · rw [if_neg hover]
      exact ⟨next, rfl, by omega, by omega, by unfold Reserved; omega⟩
  · rw [if_neg hle, if_neg (by omega)]
    exact ⟨next, rfl, by omega, by omega, by unfold Reserved; omega⟩

end Lib
