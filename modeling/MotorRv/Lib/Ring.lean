import Mathlib

/-!
# Circular tables

A circular table is a list of cells and a head index; `cells.rotate head` is its content in
logical order, oldest first. Writing at the physical index of a logical position, moving the head
and rewriting the one cell that satisfies a predicate are then ordinary list operations on that
view, which is what a ring of requests in flight or a ring of queued entries is verified against.

The four lemmas are one an operation: writing behind the newest cell (`set_rotate`), reading the
oldest (`getElem?_head`), moving the head past it (`rotate_succ`), and marking the cell that a
request is found by (`set_findIdx?_eq_map`, where at most one cell matches, so that rewriting the
first match rewrites all of them). The capacity is the length of the list and stays what it is.
-/

namespace Lib

variable {α : Type*}

/-- Writing the cell that is `i` places after the head writes place `i` of the view. -/
theorem set_rotate {cells : List α} (head : ℕ) {i : ℕ} (hi : i < cells.length) (x : α) :
    (cells.set ((head + i) % cells.length) x).rotate head = (cells.rotate head).set i x := by
  refine List.ext_getElem? fun j => ?_
  rcases Nat.lt_or_ge j cells.length with hj | hj
  · rw [List.getElem?_rotate (by simpa using hj), List.length_set, List.getElem?_set,
      List.getElem?_set, List.length_rotate, List.getElem?_rotate hj]
    have hpos : 0 < cells.length := by omega
    have hiff : (head + i) % cells.length = (j + head) % cells.length ↔ i = j := by
      constructor
      · intro h
        have h' : i ≡ j [MOD cells.length] := by
          refine Nat.ModEq.add_left_cancel' head ?_
          rw [Nat.ModEq, h, Nat.add_comm j head]
        exact Nat.ModEq.eq_of_lt_of_lt h' hi hj
      · rintro rfl
        rw [Nat.add_comm]
    by_cases hij : i = j
    · rw [if_pos (hiff.mpr hij), if_pos hij, if_pos (Nat.mod_lt _ hpos), if_pos hi]
    · rw [if_neg fun h => hij (hiff.mp h), if_neg hij]
  · rw [List.getElem?_eq_none (by simpa using hj), List.getElem?_eq_none (by simpa using hj)]

/-- The oldest cell of the view is the cell at the head. -/
theorem getElem?_head {cells : List α} {head : ℕ} (h : head < cells.length) {x : α}
    {rest : List α} (hv : cells.rotate head = x :: rest) : cells[head]? = some x := by
  rw [← List.head?_rotate h, hv, List.head?_cons]

/-- Moving the head past the oldest cell. -/
theorem rotate_succ {cells : List α} {head : ℕ} {x : α} {rest : List α}
    (hv : cells.rotate head = x :: rest) :
    cells.rotate ((head + 1) % cells.length) = rest ++ [x] := by
  rw [List.rotate_mod, ← List.rotate_rotate, hv]
  simp

/-- Rewriting the first cell that satisfies `p` rewrites every such cell, when there is at most
one. -/
theorem set_findIdx?_eq_map {p : α → Bool} {f : α → α} :
    ∀ {cells : List α}, (cells.filter p).length ≤ 1 → ∀ {d : α},
      (match cells.findIdx? p with
        | none => cells
        | some j => cells.set j (f (cells.getD j d))) = cells.map fun x => if p x then f x else x
  | [], _, _ => rfl
  | x :: xs, h, d => by
    rw [List.findIdx?_cons]
    by_cases hp : p x = true
    · rw [List.filter_cons_of_pos hp, List.length_cons] at h
      have hnone : ∀ y ∈ xs, p y = false := by
        have : xs.filter p = [] := List.length_eq_zero_iff.mp (by omega)
        simpa [List.filter_eq_nil_iff] using this
      have htail : xs.map (fun y => if p y then f y else y) = xs := by
        conv_rhs => rw [← List.map_id xs]
        exact List.map_congr_left fun y hy => by simp [hnone y hy]
      rw [if_pos hp, List.map_cons, htail, if_pos hp]
      simp
    · have hp' : p x = false := by simpa using hp
      rw [List.filter_cons_of_neg (by simp [hp'])] at h
      have ih := set_findIdx?_eq_map (f := f) h (d := d)
      rw [if_neg hp, List.map_cons, if_neg hp, ← ih]
      cases hx : xs.findIdx? p with
      | none => rfl
      | some j => simp

end Lib
