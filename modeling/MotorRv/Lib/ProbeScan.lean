import MotorRv.Lib.OpenTable

/-!
# Probe loops over parallel arrays

A table kept in parallel arrays is probed by a loop that tests, slot after slot, whether the slot
is free and whether it holds the key. Over arrays that hold the slots of an `OpenTable` the loop
is its probe; and an `OpenTable` represents a map when it answers that map's lookups and counts its
entries.

The two tests are parameters, given as predicates on slot numbers; the loop never sees the arrays.
`Represents` is stated with the lookups of a map and the number of its keys, through an encoding of
keys and one of values, so that a table and a map are connected without saying in which slot
anything stands. An empty table represents the empty map, and the insertion of a new key the map
with that key added.
-/

namespace Lib

namespace OpenTable

/-- Scan at most `n` slots from slot `i` on, `next` after `next`: the first that is free or hit. -/
def scan (free hit : ℕ → Bool) (next : ℕ → ℕ) : ℕ → ℕ → Option ℕ
  | 0, _ => none
  | n + 1, i => if free i then some i else if hit i then some i else scan free hit next n (next i)

variable {κ ν : Type*} [DecidableEq κ]

section Scan

variable {slots : List (Option (κ × ν))} {key : κ} {free hit : ℕ → Bool} {next : ℕ → ℕ}

/-- The loop over the arrays is the probe. -/
theorem scan_eq_probe (hnext : ∀ i < slots.length, next i = (i + 1) % slots.length)
    (hfree : ∀ i < slots.length, free i = true → slots[i]? = some none)
    (hused : ∀ i < slots.length, free i = false →
      ∃ k v, slots[i]? = some (some (k, v)) ∧ (hit i = true ↔ k = key)) (n : ℕ) {i : ℕ}
    (hi : i < slots.length) : scan free hit next n i = probe slots key n i := by
  induction n generalizing i with
  | zero => rfl
  | succ n ih =>
    rw [scan, probe]
    by_cases hf : free i = true
    · rw [if_pos hf, hfree i hi hf]
    · obtain ⟨k, v, hslot, hhit⟩ := hused i hi (Bool.eq_false_iff.mpr hf)
      rw [if_neg hf, hslot]
      dsimp only
      by_cases hk : k = key
      · rw [if_pos (hhit.mpr hk), if_pos hk]
      · rw [if_neg (mt hhit.mp hk), if_neg hk, hnext i hi]
        exact ih (Nat.mod_lt _ (by omega))

/-- Over `2 ^ m` slots, with masks for the remainders, the loop from the home slot on finds the
slot of the key. -/
theorem scan_eq_slotOf {home : κ → ℕ} {t : OpenTable κ ν} {m : ℕ} (hlen : t.slots.length = 2 ^ m)
    (hfree : ∀ i < t.slots.length, free i = true → t.slots[i]? = some none)
    (hused : ∀ i < t.slots.length, free i = false →
      ∃ k v, t.slots[i]? = some (some (k, v)) ∧ (hit i = true ↔ k = key)) :
    scan free hit (fun i => (i + 1) &&& (2 ^ m - 1)) (2 ^ m - 1 + 1) (home key &&& (2 ^ m - 1)) =
      t.slotOf home key := by
  have hpos : 0 < 2 ^ m := Nat.two_pow_pos m
  rw [Nat.and_two_pow_sub_one_eq_mod, Nat.sub_add_cancel hpos, slotOf, ← hlen]
  refine scan_eq_probe (fun i _ => ?_) hfree hused _ (Nat.mod_lt _ (by omega))
  rw [hlen, Nat.and_two_pow_sub_one_eq_mod]

omit [DecidableEq κ] in
/-- Writing one slot of a table read off arrays. -/
theorem map_range_eq_set {n i : ℕ} {f f' : ℕ → Option (κ × ν)} {x : Option (κ × ν)} (hi : f' i = x)
    (hne : ∀ j < n, j ≠ i → f' j = f j) :
    (List.range n).map f' = ((List.range n).map f).set i x := by
  refine List.ext_getElem? fun j => ?_
  rw [List.getElem?_set, List.length_map, List.length_range, List.getElem?_map, List.getElem?_map]
  rcases Nat.lt_or_ge j n with hj | hj
  · rw [List.getElem?_range hj]
    by_cases hij : i = j
    · subst hij
      simp [hi, hj]
    · simp [hij, hne j hj (Ne.symm hij)]
  · rw [List.getElem?_eq_none (by simpa using hj)]
    by_cases hij : i = j
    · subst hij
      simp [Nat.not_lt.mpr hj]
    · simp [hij]

end Scan

/-! ### Representing a map -/

/-- The table answers the lookups of the map `look` with `size` keys, through an encoding of keys
and one of values. -/
structure Represents {κ' ν' : Type*} (home : κ → ℕ) (key : κ' → κ) (value : ν' → ν)
    (t : OpenTable κ ν) (look : κ' → Option ν') (size : ℕ) : Prop where
  wf : t.WF home
  find : ∀ k, t.find home (key k) = (look k).map value
  size : t.size = size

section Represents

variable {κ' ν' : Type*} {home : κ → ℕ} {key : κ' → κ} {value : ν' → ν} {t : OpenTable κ ν}
  {look : κ' → Option ν'} {size limit : ℕ}

theorem represents_empty (n : ℕ) :
    Represents home key value (empty n : OpenTable κ ν) (fun _ => none) 0 where
  wf := wf_empty n
  find k := find_empty n (key k)
  size := rfl

/-- A key of the map is answered with its value, and nothing changes. -/
theorem Represents.insert_present (h : Represents home key value t look size) {k : κ'} {w : ν'}
    (hk : look k = some w) (v : ν) :
    t.insert home limit (key k) v = (.present (value w), t) :=
  OpenTable.insert_present h.wf (by rw [h.find, hk]; rfl) v

/-- A new key is added while the map has room. -/
theorem Represents.insert_added [DecidableEq κ'] (h : Represents home key value t look size)
    (hinj : Function.Injective key) (hlim : limit < t.slots.length) (hroom : size < limit)
    {k : κ'} (hk : look k = none) (v : ν') :
    ∃ t', t.insert home limit (key k) (value v) = (.added, t') ∧
      t'.slots.length = t.slots.length ∧
      Represents home key value t' (Function.update look k (some v)) (size + 1) := by
  have hnone : t.find home (key k) = none := by rw [h.find, hk]; rfl
  obtain ⟨t', ht', hwf, hsize, hlen, hperm⟩ := OpenTable.insert_added h.wf hlim
    (h.size ▸ hroom) hnone (value v)
  refine ⟨t', ht', hlen, hwf, fun k' => ?_, by rw [hsize, h.size]⟩
  rw [find_of_perm h.wf hwf hperm hnone]
  by_cases hkk : k' = k
  · subst hkk
    rw [if_pos rfl, Function.update_self]
    rfl
  · rw [if_neg (hinj.ne hkk), Function.update_of_ne hkk, h.find]

/-- With fewer entries than slots, every probe ends at a free slot or at its key. -/
theorem WF.slotOf_isSome (h : t.WF home) (hlt : t.size < t.slots.length) (k : κ) :
    ∃ i, t.slotOf home k = some i ∧
      (t.slots[i]? = some none ∨ ∃ v, t.slots[i]? = some (some (k, v))) := by
  obtain ⟨i, hi⟩ : ∃ i, t.slotOf home k = some i :=
    probe_isSome (Nat.mod_lt (home k) (by omega)) (h.none_mem hlt)
  exact ⟨i, hi, probe_eq_some hi⟩

end Represents

end OpenTable

end Lib
