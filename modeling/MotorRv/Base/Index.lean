import MotorRv.Base.Ids
import MotorRv.Lib.OpenTable

/-!
# Indexes and idempotency sets

`DenseIndex` maps an exact 64-bit key to a row number; `PairIndex` is a set of exact pairs, and
`TwoGenSet` two generations of it, of which the older is cleared at each rotation. Both tables are
open-addressed with a load limit of seven tenths.

Both are instances of the open table of the library, with the key mixed for the home slot and the
limit of the code; `slotCount` is the doubling loop of `init`, which has no answer past `2 ^ 31`
slots. `Indexes` is the invariant of an index over a column of keys: it answers exactly the keys of
the rows, each with its row number. It is kept when a row is added, and two indexes of the same rows
are `Equiv`, wherever their entries stand.

A pair is asked for in both generations but inserted in the current one only, so it is forgotten at
the second rotation after its insertion. `TwoGenSet.Equiv` is the relation between a set and the
same set rebuilt from a file, which the operations keep.
-/

namespace MotorRv

open Lib

/-- The number of slots for at most `maxElements` entries: the first power of two from 16 on that
keeps the load under 0.7. Past `2 ^ 31` slots the doubling wraps and never ends. -/
def slotCount (maxElements : ℕ) : Option ℕ :=
  ((List.range 28).map fun k => 16 * 2 ^ k).find? fun n => decide ((maxElements * 10 + 6) / 7 ≤ n)

/-- The number of entries at which a table of `n` slots refuses more: the least at a load of 0.7. -/
def loadLimit (n : ℕ) : ℕ := (n * 7 + 9) / 10

theorem slotCount_eq_some {maxElements n : ℕ} (h : slotCount maxElements = some n) :
    16 ≤ n ∧ maxElements ≤ loadLimit n ∧ loadLimit n < n := by
  have hle := List.find?_some h
  obtain ⟨k, -, rfl⟩ := List.mem_map.mp (List.mem_of_find?_eq_some h)
  have hpos : 1 ≤ 2 ^ k := Nat.one_le_two_pow
  simp only [decide_eq_true_eq] at hle
  simp only [loadLimit]
  omega

theorem slotCount_le {maxElements n : ℕ} (h : slotCount maxElements = some n) : n ≤ 2 ^ 31 := by
  obtain ⟨k, hk, rfl⟩ := List.mem_map.mp (List.mem_of_find?_eq_some h)
  have hk' : k ≤ 27 := Nat.le_of_lt_succ (List.mem_range.mp hk)
  calc 16 * 2 ^ k ≤ 16 * 2 ^ 27 := Nat.mul_le_mul_left 16 (Nat.pow_le_pow_right (by omega) hk')
    _ = 2 ^ 31 := by norm_num

/-! ### Dense indexes -/

abbrev DenseIndex := OpenTable UInt64 ℕ

namespace DenseIndex

/-- The slot a key starts from, before the mask. -/
def home (key : UInt64) : ℕ := (mix64 key).toUInt32.toNat

def find (t : DenseIndex) (key : UInt64) : Option ℕ := OpenTable.find home t key

def contains (t : DenseIndex) (key : UInt64) : Bool := (find t key).isSome

def insertOrGet (t : DenseIndex) (key : UInt64) (value : ℕ) :
    OpenTable.Inserted ℕ × DenseIndex :=
  OpenTable.insert home (loadLimit t.slots.length) t key value

def clear (t : DenseIndex) : DenseIndex := OpenTable.empty t.slots.length

/-- The index answers exactly the keys of the rows, each with its row number. -/
structure Indexes (t : DenseIndex) (keys : List UInt64) : Prop where
  wf : OpenTable.WF home t
  find : ∀ k i, DenseIndex.find t k = some i ↔ keys[i]? = some k
  size : t.size = keys.length
  room : loadLimit t.slots.length < t.slots.length

theorem Indexes.nodup {t : DenseIndex} {keys : List UInt64} (h : Indexes t keys) :
    keys.Nodup := by
  rw [List.nodup_iff_injective_get]
  intro i j hij
  have hi := (h.find (keys.get i) i).mpr (List.getElem?_eq_getElem i.2)
  have hj := (h.find (keys.get j) j).mpr (List.getElem?_eq_getElem j.2)
  rw [hij] at hi
  exact Fin.ext (Option.some.inj (hi.symm.trans hj))

/-- A key without a row is not found. -/
theorem Indexes.find_eq_none {t : DenseIndex} {keys : List UInt64} (h : Indexes t keys)
    {k : UInt64} (hk : k ∉ keys) : DenseIndex.find t k = none := by
  rcases hf : DenseIndex.find t k with _ | i
  · rfl
  · exact absurd (List.mem_of_getElem? ((h.find k i).mp hf)) hk

/-- An index with no entries. -/
theorem indexes_empty {n : ℕ} (hn : loadLimit n < n) : Indexes (OpenTable.empty n) [] where
  wf := OpenTable.wf_empty n
  find k i := by simp [DenseIndex.find, OpenTable.find_empty]
  size := rfl
  room := by simpa [OpenTable.empty] using hn

/-- The key of an existing row is answered with the row, and nothing changes. -/
theorem Indexes.insert_present {t : DenseIndex} {keys : List UInt64} (h : Indexes t keys)
    {k : UInt64} {i : ℕ} (hk : keys[i]? = some k) (v : ℕ) :
    insertOrGet t k v = (.present i, t) :=
  OpenTable.insert_present h.wf ((h.find k i).mpr hk) v

/-- A new key is added as the next row, when there is room for it. -/
theorem Indexes.insert_added {t : DenseIndex} {keys : List UInt64} (h : Indexes t keys)
    {k : UInt64} (hk : k ∉ keys) (hroom : keys.length < loadLimit t.slots.length) :
    ∃ t', insertOrGet t k keys.length = (.added, t') ∧ Indexes t' (keys ++ [k]) ∧
      t'.slots.length = t.slots.length := by
  have hnone := h.find_eq_none hk
  obtain ⟨t', ht', hwf, hsize, hlen, hperm⟩ := OpenTable.insert_added h.wf h.room
    (h.size ▸ hroom) hnone keys.length
  refine ⟨t', ht', ⟨hwf, fun k' i => ?_, ?_, by rw [hlen]; exact h.room⟩, hlen⟩
  · rw [DenseIndex.find, OpenTable.find_of_perm h.wf hwf hperm hnone]
    split_ifs with hkk
    · subst hkk
      rw [Option.some_inj]
      constructor
      · rintro rfl
        simp
      · intro hget
        by_contra hne
        rcases Nat.lt_or_ge i keys.length with hlt | hge
        · rw [List.getElem?_append_left hlt] at hget
          exact hk (List.mem_of_getElem? hget)
        · rw [List.getElem?_append_right hge, List.getElem?_singleton] at hget
          split_ifs at hget with h0
          omega
    · rw [show OpenTable.find home t k' = DenseIndex.find t k' from rfl, h.find]
      rcases Nat.lt_or_ge i keys.length with hlt | hge
      · rw [List.getElem?_append_left hlt]
      · rw [List.getElem?_eq_none hge, List.getElem?_append_right hge, List.getElem?_singleton]
        split_ifs
        · simp [Ne.symm hkk]
        · rfl
  · rw [hsize, h.size, List.length_append, List.length_singleton]

/-- Two indexes of the same rows and size cannot be told apart. -/
theorem Indexes.equiv {a b : DenseIndex} {keys : List UInt64} (ha : Indexes a keys)
    (hb : Indexes b keys) (hslots : a.slots.length = b.slots.length) :
    OpenTable.Equiv home a b where
  left := ha.wf
  right := hb.wf
  slots := hslots
  size := ha.size.trans hb.size.symm
  find k := by
    refine Option.ext fun i => ?_
    exact (ha.find k i).trans (hb.find k i).symm

end DenseIndex

/-! ### Sets of pairs, in two generations -/

abbrev PairIndex := OpenTable (UInt64 × ℕ) Unit

namespace PairIndex

/-- The slot a pair starts from, before the mask. -/
def home (key : UInt64 × ℕ) : ℕ :=
  (mix64 (key.1 ^^^ (UInt64.ofNat key.2 * 0x9E3779B97F4A7C15))).toUInt32.toNat

def contains (t : PairIndex) (hi : UInt64) (lo : ℕ) : Bool :=
  (OpenTable.find home t (hi, lo)).isSome

def insert (t : PairIndex) (hi : UInt64) (lo : ℕ) : OpenTable.Inserted Unit × PairIndex :=
  OpenTable.insert home (loadLimit t.slots.length) t (hi, lo) ()

def clear (t : PairIndex) : PairIndex := OpenTable.empty t.slots.length

end PairIndex

structure TwoGenSet where
  gen0 : PairIndex
  gen1 : PairIndex
  current : Bool
  rotation : DateYmd

namespace TwoGenSet

/-- The generation with the given number. -/
def gen (s : TwoGenSet) (g : Bool) : PairIndex := if g then s.gen1 else s.gen0

def setGen (s : TwoGenSet) (g : Bool) (t : PairIndex) : TwoGenSet :=
  if g then { s with gen1 := t } else { s with gen0 := t }

def contains (s : TwoGenSet) (hi : UInt64) (lo : ℕ) : Bool :=
  PairIndex.contains (s.gen s.current) hi lo || PairIndex.contains (s.gen !s.current) hi lo

/-- Insert into the current generation, unless the pair is in either. -/
def insert (s : TwoGenSet) (hi : UInt64) (lo : ℕ) : OpenTable.Inserted Unit × TwoGenSet :=
  if s.contains hi lo then (.present (), s)
  else
    match PairIndex.insert (s.gen s.current) hi lo with
    | (res, t) => (res, s.setGen s.current t)

/-- Rotate when the window has passed since the last rotation: the other generation is cleared and
becomes the current one. -/
def maybeRotate (s : TwoGenSet) (today : DateYmd) (windowDays : Int32) : TwoGenSet :=
  if s.rotation = 0 then { s with rotation := today }
  else if dayIndex today - dayIndex s.rotation < windowDays.toInt then s
  else
    { s.setGen (!s.current) (PairIndex.clear (s.gen !s.current)) with
      current := !s.current
      rotation := today }

def size (s : TwoGenSet) : ℕ := s.gen0.size + s.gen1.size

/-- The members in slot order, generation 0 first, each with its generation. -/
def members (s : TwoGenSet) : List (UInt64 × ℕ × Bool) :=
  s.gen0.entries.map (fun e => (e.1.1, e.1.2, false)) ++
    s.gen1.entries.map (fun e => (e.1.1, e.1.2, true))

/-- `insert_into`: whether the pair was new and there was room. -/
def insertInto (s : TwoGenSet) (g : Bool) (hi : UInt64) (lo : ℕ) : Bool × TwoGenSet :=
  match PairIndex.insert (s.gen g) hi lo with
  | (.added, t) => (true, s.setGen g t)
  | (_, t) => (false, s.setGen g t)

/-- Two sets with the same members in each generation, generation, date and room. -/
structure Equiv (a b : TwoGenSet) : Prop where
  gen0 : OpenTable.Equiv PairIndex.home a.gen0 b.gen0
  gen1 : OpenTable.Equiv PairIndex.home a.gen1 b.gen1
  current : a.current = b.current
  rotation : a.rotation = b.rotation
  room0 : loadLimit a.gen0.slots.length < a.gen0.slots.length
  room1 : loadLimit a.gen1.slots.length < a.gen1.slots.length

theorem Equiv.gen {a b : TwoGenSet} (h : Equiv a b) (g : Bool) :
    OpenTable.Equiv PairIndex.home (a.gen g) (b.gen g) ∧
      loadLimit (a.gen g).slots.length < (a.gen g).slots.length := by
  cases g with
  | false => exact ⟨h.gen0, h.room0⟩
  | true => exact ⟨h.gen1, h.room1⟩

theorem Equiv.setGen {a b : TwoGenSet} (h : Equiv a b) (g : Bool) {t u : PairIndex}
    (htu : OpenTable.Equiv PairIndex.home t u) (hroom : loadLimit t.slots.length < t.slots.length) :
    Equiv (a.setGen g t) (b.setGen g u) := by
  cases g with
  | false => exact ⟨htu, h.gen1, h.current, h.rotation, hroom, h.room1⟩
  | true => exact ⟨h.gen0, htu, h.current, h.rotation, h.room0, hroom⟩

theorem Equiv.contains {a b : TwoGenSet} (h : Equiv a b) (hi : UInt64) (lo : ℕ) :
    a.contains hi lo = b.contains hi lo := by
  simp only [TwoGenSet.contains, PairIndex.contains, ← h.current]
  rw [(h.gen a.current).1.find, (h.gen !a.current).1.find]

/-- Insertion does not change the number of slots. -/
theorem length_insert (t : PairIndex) (hi : UInt64) (lo : ℕ) :
    (PairIndex.insert t hi lo).2.slots.length = t.slots.length := by
  unfold PairIndex.insert OpenTable.insert
  split
  · rfl
  · split
    · rfl
    · split_ifs
      · rfl
      · exact List.length_set

theorem Equiv.insert {a b : TwoGenSet} (h : Equiv a b) (hi : UInt64) (lo : ℕ) :
    (a.insert hi lo).1 = (b.insert hi lo).1 ∧ Equiv (a.insert hi lo).2 (b.insert hi lo).2 := by
  unfold TwoGenSet.insert
  rw [h.contains, ← h.current]
  split_ifs
  · exact ⟨rfl, h⟩
  · obtain ⟨heq, hroom⟩ := h.gen a.current
    obtain ⟨hres, htab⟩ := heq.insert hroom (hi, lo) ()
    have hres' : (PairIndex.insert (a.gen a.current) hi lo).1 =
        (PairIndex.insert (b.gen a.current) hi lo).1 := by
      simp only [PairIndex.insert, ← heq.slots]
      exact hres
    refine ⟨hres', h.setGen a.current ?_ ?_⟩
    · simp only [PairIndex.insert, ← heq.slots]
      exact htab
    · rw [length_insert]
      exact hroom

theorem Equiv.maybeRotate {a b : TwoGenSet} (h : Equiv a b) (today : DateYmd)
    (windowDays : Int32) : Equiv (a.maybeRotate today windowDays)
      (b.maybeRotate today windowDays) := by
  unfold TwoGenSet.maybeRotate
  rw [← h.rotation, ← h.current]
  split_ifs
  · exact ⟨h.gen0, h.gen1, rfl, rfl, h.room0, h.room1⟩
  · exact h
  · obtain ⟨heq, hroom⟩ := h.gen !a.current
    have hempty : OpenTable.Equiv PairIndex.home (PairIndex.clear (a.gen !a.current))
        (PairIndex.clear (b.gen !a.current)) := by
      rw [PairIndex.clear, PairIndex.clear, ← heq.slots]
      exact ⟨OpenTable.wf_empty _, OpenTable.wf_empty _, rfl, rfl, fun _ => rfl⟩
    have hset := h.setGen (!a.current) hempty (by
      simpa [PairIndex.clear, OpenTable.empty] using hroom)
    exact ⟨hset.gen0, hset.gen1, rfl, rfl, hset.room0, hset.room1⟩

end TwoGenSet

end MotorRv
