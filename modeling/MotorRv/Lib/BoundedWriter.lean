import Mathlib

/-!
# Writing fragments into a bounded buffer

A writer appends a fragment when it fits into what is left of the buffer and drops it otherwise,
each fragment on its own. What is written is a clean prefix when nothing is written after the first
drop, and that happens at few sizes of the buffer: after the first fragment that does not fit, none
of the later ones may fit.

`putAll` writes a list of fragments, and `total` is the length of the text they would make without a
bound. The first drop splits the list: what comes before it is written in full, and
`late_iff_of_first_dropped` says when something behind it is written after all. The two results
about particular ends of a text (`late_iff_last_one`, `late_iff_last_two`) turn that into a set of
buffer sizes, with `Boundary` for the sizes that some first fragments fill exactly; they are what a
text whose last fragments are short comes to.
-/

namespace Lib

variable {α : Type*}

/-- The text so far and the room that is left; whether a fragment was dropped, and whether one was
written after that. -/
structure BoundedWriter (α : Type*) where
  out : List α
  room : ℕ
  dropped : Bool
  late : Bool

namespace BoundedWriter

/-- A writer over an empty buffer of `n` places. -/
def fresh (n : ℕ) : BoundedWriter α := ⟨[], n, false, false⟩

/-- Append a fragment if it fits. -/
def put (w : BoundedWriter α) (s : List α) : BoundedWriter α :=
  if w.room < s.length then { w with dropped := true }
  else ⟨w.out ++ s, w.room - s.length, w.dropped, w.late || w.dropped⟩

def putAll (w : BoundedWriter α) (fs : List (List α)) : BoundedWriter α := fs.foldl put w

/-- The length of all fragments. -/
def total (fs : List (List α)) : ℕ := (fs.map List.length).sum

@[simp]
theorem total_nil : total ([] : List (List α)) = 0 := rfl

@[simp]
theorem total_cons (f : List α) (fs : List (List α)) : total (f :: fs) = f.length + total fs := by
  simp [total]

/-- The length of two texts. -/
@[simp]
theorem total_append (fs gs : List (List α)) : total (fs ++ gs) = total fs + total gs := by
  simp [total]

@[simp]
theorem putAll_nil (w : BoundedWriter α) : w.putAll [] = w := rfl

@[simp]
theorem putAll_cons (w : BoundedWriter α) (f : List α) (fs : List (List α)) :
    w.putAll (f :: fs) = (w.put f).putAll fs := rfl

/-- Two texts are written one after the other. -/
theorem putAll_append (w : BoundedWriter α) (fs gs : List (List α)) :
    w.putAll (fs ++ gs) = (w.putAll fs).putAll gs := List.foldl_append

/-- A fragment that does not fit is dropped whole. -/
theorem put_of_lt {w : BoundedWriter α} {s : List α} (h : w.room < s.length) :
    w.put s = { w with dropped := true } := if_pos h

/-- A fragment that fits is written. -/
theorem put_of_le {w : BoundedWriter α} {s : List α} (h : s.length ≤ w.room) :
    w.put s = ⟨w.out ++ s, w.room - s.length, w.dropped, w.late || w.dropped⟩ :=
  if_neg (Nat.not_lt.mpr h)

/-! ### What is written -/

/-- Fragments that all fit are all written. -/
theorem putAll_of_le : ∀ {fs : List (List α)} {w : BoundedWriter α}, w.dropped = false →
    w.late = false → total fs ≤ w.room →
    w.putAll fs = ⟨w.out ++ fs.flatten, w.room - total fs, false, false⟩
  | [], w, hd, hl, _ => by
    cases w
    simp_all
  | f :: fs, w, hd, hl, h => by
    rw [total_cons] at h
    rw [putAll_cons, put_of_le (by omega), hd, hl, putAll_of_le rfl rfl (by simp; omega)]
    simp [Nat.sub_sub]

/-- Late stays late. -/
theorem late_putAll : ∀ {fs : List (List α)} {w : BoundedWriter α}, w.late = true →
    (w.putAll fs).late = true
  | [], _, h => h
  | f :: fs, w, h => by
    rw [putAll_cons]
    refine late_putAll ?_
    rw [put]
    split_ifs
    · exact h
    · simp [h]

/-- After a drop, nothing comes late when no fragment fits into what is left. -/
theorem late_of_dropped : ∀ {fs : List (List α)} {w : BoundedWriter α}, w.dropped = true →
    w.late = false → ((w.putAll fs).late = false ↔ ∀ g ∈ fs, w.room < g.length)
  | [], w, _, hl => by simp [hl]
  | f :: fs, w, hd, hl => by
    rw [putAll_cons, List.forall_mem_cons]
    by_cases hf : w.room < f.length
    · rw [put_of_lt hf, late_of_dropped (w := { w with dropped := true }) rfl hl]
      simp [hf]
    · have hlate : ((w.put f).putAll fs).late = true :=
        late_putAll (by rw [put_of_le (Nat.not_lt.mp hf), hd]; simp)
      simp [hlate, hf]

/-- After a drop, when nothing comes late, nothing is written. -/
theorem out_of_dropped : ∀ {fs : List (List α)} {w : BoundedWriter α}, w.dropped = true →
    (∀ g ∈ fs, w.room < g.length) → (w.putAll fs).out = w.out
  | [], _, _, _ => rfl
  | f :: fs, w, hd, h => by
    rw [List.forall_mem_cons] at h
    rw [putAll_cons, put_of_lt h.1]
    exact out_of_dropped rfl h.2

/-! ### Clean prefixes -/

/-- The first fragment that does not fit. -/
theorem exists_first_dropped {n : ℕ} : ∀ {fs : List (List α)}, n < total fs →
    ∃ pre f post, fs = pre ++ f :: post ∧ total pre ≤ n ∧ n < total pre + f.length
  | [], h => absurd h (Nat.not_lt_zero n)
  | f :: fs, h => by
    by_cases hf : n < f.length
    · exact ⟨[], f, fs, rfl, Nat.zero_le n, by simpa using hf⟩
    · rw [total_cons] at h
      obtain ⟨pre, g, post, rfl, hle, hlt⟩ := exists_first_dropped
        (show n - f.length < total fs by omega)
      refine ⟨f :: pre, g, post, rfl, ?_, ?_⟩
      · rw [total_cons]
        omega
      · rw [total_cons]
        omega

section Clean

variable {n : ℕ} {pre post : List (List α)} {f : List α}

/-- The writer at the first fragment that does not fit. -/
theorem putAll_first_dropped (hle : total pre ≤ n) (hlt : n < total pre + f.length) :
    (fresh n).putAll (pre ++ f :: post) =
      (⟨pre.flatten, n - total pre, true, false⟩ : BoundedWriter α).putAll post := by
  have hpre : (fresh n).putAll pre = ⟨pre.flatten, n - total pre, false, false⟩ :=
    putAll_of_le rfl rfl hle
  rw [putAll_append, hpre, putAll_cons, put_of_lt]
  change n - total pre < f.length
  omega

/-- **Nothing comes late exactly when nothing fits after the first drop.** -/
theorem late_iff_of_first_dropped (hle : total pre ≤ n) (hlt : n < total pre + f.length) :
    ((fresh n).putAll (pre ++ f :: post)).late = false ↔
      ∀ g ∈ post, n - total pre < g.length := by
  rw [putAll_first_dropped hle hlt, late_of_dropped rfl rfl]

/-- What is written, when nothing comes late, are the first fragments. -/
theorem out_prefix {fs : List (List α)} (h : ((fresh n).putAll fs).late = false) :
    ((fresh n).putAll fs).out <+: fs.flatten := by
  by_cases hn : total fs ≤ n
  · rw [putAll_of_le rfl rfl hn]
    exact List.prefix_rfl
  · obtain ⟨pre, f, post, rfl, hle, hlt⟩ := exists_first_dropped (Nat.lt_of_not_le hn)
    rw [late_iff_of_first_dropped hle hlt] at h
    rw [putAll_first_dropped hle hlt, out_of_dropped rfl h, List.flatten_append]
    exact List.prefix_append _ _

/-- The sizes that some first fragments fill. -/
def Boundary (fs : List (List α)) (n : ℕ) : Prop := ∃ k, total (fs.take k) = n

/-- Where a first part ends there is a boundary between fragments. -/
theorem boundary_append (pre post : List (List α)) : Boundary (pre ++ post) (total pre) :=
  ⟨pre.length, by rw [List.take_left]⟩

/-- A boundary up to the first drop is the place of the drop. -/
theorem eq_of_boundary (hb : Boundary (pre ++ f :: post) n) (hle : total pre ≤ n)
    (hlt : n < total pre + f.length) : n = total pre := by
  obtain ⟨k, rfl⟩ := hb
  rcases Nat.lt_or_ge pre.length k with hk | hk
  · -- the fragment that is dropped would be among the first
    obtain ⟨d, rfl⟩ := Nat.exists_eq_add_of_lt hk
    rw [show pre.length + d + 1 = pre.length + (d + 1) by omega, List.take_length_add_append,
      List.take_succ_cons, total_append, total_cons] at hlt
    omega
  · rw [List.take_append_of_le_length hk] at hle ⊢
    have hsplit : total pre = total (pre.take k) + total (pre.drop k) := by
      rw [← total_append, List.take_append_drop]
    omega

/-- The first drop before or at a fragment of one place leaves no room, or that fragment comes
late. -/
theorem late_iff_boundary {fs tail : List (List α)} {x : α}
    (hne : ∀ g ∈ fs ++ [x] :: tail, g ≠ []) (hn : n < total (fs ++ [[x]])) :
    ((fresh n).putAll (fs ++ [x] :: tail)).late = false ↔ Boundary (fs ++ [x] :: tail) n := by
  obtain ⟨pre, f, post, hfs, hle, hlt⟩ := exists_first_dropped hn
  have hall : fs ++ [x] :: tail = pre ++ f :: (post ++ tail) := by
    rw [← List.singleton_append, ← List.append_assoc, hfs]
    simp
  rw [hall] at hne ⊢
  rw [late_iff_of_first_dropped hle hlt]
  constructor
  · intro hlate
    rcases List.eq_nil_or_concat post with rfl | ⟨init, last, rfl⟩
    · -- the fragment of one place is itself dropped
      obtain ⟨-, hf⟩ := List.append_singleton_inj.mp hfs
      rw [← hf, List.length_singleton] at hlt
      obtain rfl : n = total pre := by omega
      exact boundary_append _ _
    · have hlast : [x] = last := by
        rw [List.concat_eq_append, ← List.cons_append, ← List.append_assoc] at hfs
        exact (List.append_singleton_inj.mp hfs).2
      have hroom := hlate last (by simp)
      rw [← hlast, List.length_singleton] at hroom
      obtain rfl : n = total pre := by omega
      exact boundary_append _ _
  · intro hb g hg
    rw [eq_of_boundary hb hle hlt, Nat.sub_self]
    exact List.length_pos_iff.mpr (hne g (by simp [hg]))

/-- **Sizes of a clean prefix, when the last fragment has one place**: the sizes that some first
fragments fill, and those that hold all. -/
theorem late_iff_last_one {fs : List (List α)} {x : α} (hne : ∀ g ∈ fs ++ [[x]], g ≠ []) :
    ((fresh n).putAll (fs ++ [[x]])).late = false ↔
      total (fs ++ [[x]]) ≤ n ∨ Boundary (fs ++ [[x]]) n := by
  by_cases hn : total (fs ++ [[x]]) ≤ n
  · rw [putAll_of_le rfl rfl hn]
    exact iff_of_true rfl (.inl hn)
  · rw [late_iff_boundary hne (Nat.lt_of_not_le hn), or_iff_right hn]

/-- **Sizes of a clean prefix, when two longer fragments follow one of one place**: besides the
boundaries, those with too little room for the last fragment after all before the last two, and
those with room for all but the last. -/
theorem late_iff_last_two {fs : List (List α)} {x : α} {a b : List α}
    (hne : ∀ g ∈ fs ++ [x] :: [a, b], g ≠ []) :
    ((fresh n).putAll (fs ++ [x] :: [a, b])).late = false ↔
      Boundary (fs ++ [x] :: [a, b]) n ∨
        (total (fs ++ [[x]]) ≤ n ∧ n < total (fs ++ [[x]]) + b.length) ∨
        total (fs ++ [[x]]) + a.length ≤ n := by
  have hsplit : fs ++ [x] :: [a, b] = (fs ++ [[x]]) ++ a :: [b] := by simp
  rcases Nat.lt_or_ge n (total (fs ++ [[x]])) with hn | hn
  · rw [late_iff_boundary hne hn, or_iff_left]
    omega
  · rw [hsplit]
    rcases Nat.lt_or_ge n (total (fs ++ [[x]]) + a.length) with ha | ha
    · rw [late_iff_of_first_dropped hn ha, List.forall_mem_singleton]
      constructor
      · intro hb
        exact .inr (.inl ⟨hn, by omega⟩)
      · rintro (hb | ⟨-, hb⟩ | hb)
        · rw [eq_of_boundary hb hn ha, Nat.sub_self]
          exact List.length_pos_iff.mpr (hne b (by simp))
        · omega
        · omega
    · refine iff_of_true ?_ (.inr (.inr ha))
      rcases Nat.lt_or_ge n (total (fs ++ [[x]]) + a.length + b.length) with hb | hb
      · rw [show fs ++ [[x]] ++ a :: [b] = (fs ++ [[x]] ++ [a]) ++ b :: [] by simp,
          late_iff_of_first_dropped]
        · simp
        · simpa [Nat.add_assoc] using ha
        · simpa [Nat.add_assoc] using hb
      · rw [putAll_of_le rfl rfl]
        simpa [fresh, Nat.add_assoc] using hb

end Clean

end BoundedWriter

end Lib
