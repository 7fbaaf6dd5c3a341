import MotorRv.Base.Index
import MotorRv.Lib.Answers
import MotorRv.Lib.ProbeScan

/-!
# The tables over their arrays

`DenseTable` and `PairTable` are the two indexes as the code keeps them: parallel arrays, a mask
for the remainder and a counter. Read slot by slot they are the `DenseIndex` and the `PairIndex` of
the rest of the development. To their callers they are a finite map in which the first value of a
key stays, and a finite set: as long as at most as many distinct keys come as `init` was asked for,
no insertion is refused and every answer is that of the map.

There are two refinements, one upon the other. The arrays simulate the open table of the library
(`insertOrGet_index`, `find_index`): the probe loops visit the same slots, and the load test is the
limit. The open table in turn represents a map, with `kEmpty` standing for no answer; `Holds` joins
the two and carries the room that is left, and `Holds.step` shows one operation of the map to be one
operation of the arrays. `tables_refine` is the run.

The caller must not insert the mark that stands for a free slot, and must not come with more keys
than it asked for; `Admits` says both, and says nothing else, so the keys themselves may be any
64-bit values, zero included.
-/

namespace MotorRv

open Lib

/-! ### The dense index -/

structure DenseTable where
  keys : List UInt64
  vals : List UInt32
  cap : ℕ
  size : ℕ

namespace DenseTable

/-- The value of a free slot; also the answer of a lookup that finds nothing. -/
def kEmpty : UInt32 := 0xFFFFFFFF

def mask (t : DenseTable) : ℕ := t.cap - 1

/-- A table with all `cap` slots free. -/
def cleared (cap : ℕ) : DenseTable := ⟨List.replicate cap 0, List.replicate cap kEmpty, cap, 0⟩

/-- With the two arrays allocated; past `2 ^ 31` slots the doubling never ends. -/
def init (maxElements : UInt32) : Option DenseTable := (slotCount maxElements.toNat).map cleared

/-- The probe loop: the first slot from the home slot on that is free or holds the key; none when
the loop goes once around. -/
def slot (t : DenseTable) (key : UInt64) : Option ℕ :=
  OpenTable.scan (fun i => t.vals.getD i kEmpty == kEmpty) (fun i => t.keys.getD i 0 == key)
    (fun i => (i + 1) &&& t.mask) (t.mask + 1) (DenseIndex.home key &&& t.mask)

/-- `insert_or_get`: the value and `inserted`. -/
def insertOrGet (t : DenseTable) (key : UInt64) (value : UInt32) : (UInt32 × Bool) × DenseTable :=
  match t.slot key with
  | none => ((kEmpty, false), t)
  | some i =>
    if t.vals.getD i kEmpty = kEmpty then
      if t.cap * 7 ≤ t.size * 10 then ((kEmpty, false), t)
      else
        ((value, true),
          { t with keys := t.keys.set i key, vals := t.vals.set i value, size := t.size + 1 })
    else ((t.vals.getD i kEmpty, false), t)

def find (t : DenseTable) (key : UInt64) : UInt32 :=
  match t.slot key with
  | none => kEmpty
  | some i => if t.vals.getD i kEmpty = kEmpty then kEmpty else t.vals.getD i kEmpty

def contains (t : DenseTable) (key : UInt64) : Bool := t.find key != kEmpty

def clear (t : DenseTable) : DenseTable := cleared t.cap

/-! ### As an open table -/

/-- What slot `i` holds. -/
def entryAt (t : DenseTable) (i : ℕ) : Option (UInt64 × ℕ) :=
  if t.vals.getD i kEmpty = kEmpty then none
  else some (t.keys.getD i 0, (t.vals.getD i kEmpty).toNat)

def index (t : DenseTable) : DenseIndex := ⟨(List.range t.cap).map t.entryAt, t.size⟩

/-- The arrays have `cap` places, and `cap` is a power of two above its own load limit. -/
structure Sized (t : DenseTable) : Prop where
  keys : t.keys.length = t.cap
  vals : t.vals.length = t.cap
  pow : ∃ m, t.cap = 2 ^ m
  room : loadLimit t.cap < t.cap

@[simp]
theorem length_index (t : DenseTable) : t.index.slots.length = t.cap := by simp [index]

@[simp]
theorem size_index (t : DenseTable) : t.index.size = t.size := rfl

/-- A slot of the index is the entry of the arrays at that place. -/
theorem index_slots (t : DenseTable) {i : ℕ} (hi : i < t.cap) :
    t.index.slots[i]? = some (t.entryAt i) := by
  rw [index, List.getElem?_map, List.getElem?_range hi]
  rfl

/-- The loop probes as the open table does. -/
theorem slot_eq {t : DenseTable} (h : t.Sized) (key : UInt64) :
    t.slot key = t.index.slotOf DenseIndex.home key := by
  obtain ⟨m, hm⟩ := h.pow
  rw [slot, mask, hm]
  refine OpenTable.scan_eq_slotOf ((length_index t).trans hm) (fun i hi hf => ?_) fun i hi hf => ?_
  · rw [index_slots t (length_index t ▸ hi), entryAt, if_pos (by simpa using hf)]
  · rw [index_slots t (length_index t ▸ hi), entryAt, if_neg (by simpa using hf)]
    exact ⟨_, _, rfl, by simp⟩

/-- A slot that a probe finds holds `entryAt`. -/
theorem getD_slots {t : DenseTable} (h : t.Sized) {key : UInt64} {i : ℕ}
    (hi : t.slot key = some i) :
    i < t.cap ∧ t.index.slots.getD i none = t.entryAt i := by
  rw [slot_eq h] at hi
  have hlt : i < t.index.slots.length := by
    obtain hn | ⟨v, hv⟩ := OpenTable.probe_eq_some hi
    · exact (List.getElem?_eq_some_iff.mp hn).1
    · exact (List.getElem?_eq_some_iff.mp hv).1
  rw [length_index] at hlt
  exact ⟨hlt, by rw [List.getD_eq_getElem?_getD, index_slots t hlt]; rfl⟩

/-- The load test is the limit of the open table. -/
theorem full_iff (cap size : ℕ) : cap * 7 ≤ size * 10 ↔ loadLimit cap ≤ size := by
  rw [loadLimit]
  omega

/-- The answer of `insert_or_get` from that of the open table. -/
def answerOf (value : UInt32) : OpenTable.Inserted ℕ → UInt32 × Bool
  | .present v => (UInt32.ofNat v, false)
  | .added => (value, true)
  | .full => (kEmpty, false)

/-- **The arrays simulate the open table.** -/
theorem insertOrGet_index {t : DenseTable} (h : t.Sized) (key : UInt64) {value : UInt32}
    (hv : value ≠ kEmpty) :
    (t.insertOrGet key value).1 =
    answerOf value (DenseIndex.insertOrGet t.index key value.toNat).1 ∧
      (t.insertOrGet key value).2.index = (DenseIndex.insertOrGet t.index key value.toNat).2 ∧
      (t.insertOrGet key value).2.Sized ∧ (t.insertOrGet key value).2.cap = t.cap := by
  rw [insertOrGet, DenseIndex.insertOrGet, OpenTable.insert, ← slot_eq h]
  cases hs : t.slot key with
  | none => exact ⟨rfl, rfl, h, rfl⟩
  | some i =>
    obtain ⟨hi, hget⟩ := getD_slots h hs
    dsimp only
    rw [hget, entryAt, length_index, size_index]
    by_cases hfree : t.vals.getD i kEmpty = kEmpty
    · rw [if_pos hfree, if_pos hfree]
      dsimp only
      by_cases hfull : t.cap * 7 ≤ t.size * 10
      · rw [if_pos hfull, if_pos ((full_iff _ _).mp hfull)]
        exact ⟨rfl, rfl, h, rfl⟩
      · rw [if_neg hfull, if_neg (mt (full_iff _ _).mpr hfull)]
        refine ⟨rfl, ?_, ⟨by simpa using h.keys, by simpa using h.vals, h.pow, h.room⟩, rfl⟩
        have hslots : (List.range t.cap).map (entryAt { t with
            keys := t.keys.set i key, vals := t.vals.set i value, size := t.size + 1 }) =
            ((List.range t.cap).map t.entryAt).set i (some (key, value.toNat)) := by
          refine OpenTable.map_range_eq_set ?_ fun j _ hj => ?_
          · simp [entryAt, List.getD_eq_getElem?_getD, h.keys, h.vals, hi, hv]
          · simp [entryAt, List.getD_eq_getElem?_getD, List.getElem?_set_ne (Ne.symm hj)]
        rw [index, hslots]
        rfl
    · rw [if_neg hfree, if_neg hfree]
      exact ⟨by simp [answerOf], rfl, h, rfl⟩

/-- The lookup in the arrays is the lookup in the index, with `kEmpty` for none. -/
theorem find_index {t : DenseTable} (h : t.Sized) (key : UInt64) :
    DenseIndex.find t.index key =
      if t.find key = kEmpty then none else some (t.find key).toNat := by
  rw [DenseIndex.find, OpenTable.find, find, ← slot_eq h]
  cases hs : t.slot key with
  | none => rfl
  | some i =>
    dsimp only
    rw [(getD_slots h hs).2, entryAt]
    by_cases hfree : t.vals.getD i kEmpty = kEmpty
    · simp only [if_pos hfree]
      rfl
    · simp only [if_neg hfree]
      rfl

theorem index_cleared (cap : ℕ) : (cleared cap).index = OpenTable.empty cap := by
  have hnone : (List.range cap).map (cleared cap).entryAt = List.replicate cap none := by
    refine List.eq_replicate_iff.mpr ⟨by simp, fun e he => ?_⟩
    obtain ⟨i, hi, rfl⟩ := List.mem_map.mp he
    simp [entryAt, cleared, List.getD_eq_getElem?_getD, List.mem_range.mp hi]
  rw [index, show (cleared cap).cap = cap from rfl, hnone]
  rfl

/-- Cleared arrays of a power of two are well sized. -/
theorem sized_cleared {m cap : ℕ} (hpow : cap = 2 ^ m) (hroom : loadLimit cap < cap) :
    (cleared cap).Sized where
  keys := List.length_replicate
  vals := List.length_replicate
  pow := ⟨m, hpow⟩
  room := hroom

/-! ### As a finite map -/

/-- What a caller asks of the index. -/
inductive Op
  | insertOrGet (key : UInt64) (value : UInt32)
  | find (key : UInt64)
  | contains (key : UInt64)
  | size
  | clear

inductive Answer
  | value (v : UInt32) (inserted : Bool)
  | found (v : UInt32)
  | member (b : Bool)
  | count (n : ℕ)
  | done

def step (t : DenseTable) : Op → Answer × DenseTable
  | .insertOrGet key value =>
    (.value (t.insertOrGet key value).1.1 (t.insertOrGet key value).1.2,
      (t.insertOrGet key value).2)
  | .find key => (.found (t.find key), t)
  | .contains key => (.member (t.contains key), t)
  | .size => (.count t.size, t)
  | .clear => (.done, t.clear)

end DenseTable

/-- The purpose of the index: each key inserted since the last clear, with its first value. -/
abbrev FirstValues := Finmap fun _ : UInt64 => UInt32

namespace FirstValues

open DenseTable

def step (m : FirstValues) : Op → Answer × FirstValues
  | .insertOrGet key value =>
    match m.lookup key with
    | some v => (.value v false, m)
    | none => (.value value true, m.insert key value)
  | .find key => (.found ((m.lookup key).getD kEmpty), m)
  | .contains key => (.member (decide (key ∈ m)), m)
  | .size => (.count m.keys.card, m)
  | .clear => (.done, ∅)

/-- Insertions of values other than the mark, of at most `n` distinct keys. -/
def Admits (n : ℕ) (m : FirstValues) : Op → Prop
  | .insertOrGet key value => value ≠ kEmpty ∧ (key ∈ m ∨ m.keys.card < n)
  | _ => True

/-- A new key is one key more. -/
theorem card_keys_insert {m : FirstValues} {key : UInt64} (hk : key ∉ m) (value : UInt32) :
    (m.insert key value).keys.card = m.keys.card + 1 := by
  have hkeys : (m.insert key value).keys = insert key m.keys := by
    ext k
    rw [Finmap.mem_keys, Finmap.mem_insert, Finset.mem_insert, Finmap.mem_keys]
  rw [hkeys, Finset.card_insert_of_notMem (by rwa [Finmap.mem_keys])]

/-- The first value of a new key is looked up from then on. -/
theorem lookup_insert_eq (m : FirstValues) (key : UInt64) (value : UInt32) :
    (fun k => (m.insert key value).lookup k) = Function.update (fun k => m.lookup k) key
    (some value) := by
  funext k
  by_cases hk : k = key
  · subst hk
    rw [Finmap.lookup_insert, Function.update_self]
  · rw [Finmap.lookup_insert_of_ne _ hk, Function.update_of_ne hk]

end FirstValues

namespace DenseTable

/-- The arrays hold the map, with room for `n` keys. -/
structure Holds (n : ℕ) (t : DenseTable) (m : FirstValues) : Prop where
  sized : t.Sized
  rep : OpenTable.Represents DenseIndex.home id UInt32.toNat t.index
    (fun k => m.lookup k) m.keys.card
  marked : ∀ k v, m.lookup k = some v → v ≠ kEmpty
  card : m.keys.card ≤ n
  room : n ≤ loadLimit t.cap

section Holds

variable {n : ℕ} {t : DenseTable} {m : FirstValues}

/-- A lookup answers the value of the map, or `kEmpty`. -/
theorem Holds.find (h : Holds n t m) (key : UInt64) : t.find key = (m.lookup key).getD kEmpty := by
  have hfind := h.rep.find key
  rw [id, show OpenTable.find DenseIndex.home t.index key = DenseIndex.find t.index key from rfl,
    find_index h.sized] at hfind
  rcases hl : m.lookup key with _ | v
  · rw [hl] at hfind
    split_ifs at hfind with he
    · exact he
    · simp at hfind
  · rw [hl] at hfind
    split_ifs at hfind with he
    · simp at hfind
    · exact UInt32.toNat_inj.mp (Option.some.inj hfind)

theorem Holds.size (h : Holds n t m) : t.size = m.keys.card := h.rep.size

/-- Every probe loop ends at a slot that is free or holds the key. -/
theorem Holds.slot (h : Holds n t m) (key : UInt64) :
    ∃ i, t.slot key = some i ∧ i < t.cap ∧
      (t.vals.getD i kEmpty = kEmpty ∨ t.keys.getD i 0 = key) := by
  have hlt : t.index.size < t.index.slots.length := by
    have := h.card
    have := h.room
    have := h.sized.room
    rw [size_index, h.size, length_index]
    omega
  obtain ⟨i, hi, hat⟩ := h.rep.wf.slotOf_isSome hlt key
  rw [← slot_eq h.sized] at hi
  obtain ⟨hcap, -⟩ := getD_slots h.sized hi
  refine ⟨i, hi, hcap, ?_⟩
  rw [index_slots t hcap, entryAt] at hat
  by_cases hfree : t.vals.getD i kEmpty = kEmpty
  · exact .inl hfree
  · rw [if_neg hfree] at hat
    obtain hat | ⟨v, hat⟩ := hat
    · simp at hat
    · exact .inr (Prod.mk.inj (Option.some.inj (Option.some.inj hat))).1

/-- A cleared table holds the empty map, with room up to its load limit. -/
theorem holds_cleared {k cap : ℕ} (hpow : cap = 2 ^ k) (hroom : loadLimit cap < cap)
    (hn : n ≤ loadLimit cap) : Holds n (cleared cap) ∅ where
  sized := sized_cleared hpow hroom
  rep := by
    rw [index_cleared, Finmap.keys_empty, Finset.card_empty]
    exact OpenTable.represents_empty cap
  marked k v hv := by simp at hv
  card := by simp
  room := hn

/-- A key of the map gets its first value back. -/
theorem Holds.insert_present (h : Holds n t m) {key : UInt64} {v value : UInt32}
    (hk : m.lookup key = some v) (hvalue : value ≠ kEmpty) :
    (t.insertOrGet key value).1 = (v, false) ∧ Holds n (t.insertOrGet key value).2 m := by
  obtain ⟨hans, hidx, hsized, hcap⟩ := insertOrGet_index h.sized key hvalue
  have hins : DenseIndex.insertOrGet t.index key value.toNat = (.present v.toNat, t.index) :=
    h.rep.insert_present hk value.toNat
  rw [hins] at hans hidx
  refine ⟨by rw [hans]; simp [answerOf], hsized, ?_, h.marked, h.card, hcap ▸ h.room⟩
  rw [hidx]
  exact h.rep

/-- A new key is inserted while fewer than `n` keys are there. -/
theorem Holds.insert_added (h : Holds n t m) {key : UInt64} {value : UInt32} (hk : key ∉ m)
    (hvalue : value ≠ kEmpty) (hroom : m.keys.card < n) :
    (t.insertOrGet key value).1 = (value, true) ∧
      Holds n (t.insertOrGet key value).2 (m.insert key value) := by
  obtain ⟨hans, hidx, hsized, hcap⟩ := insertOrGet_index h.sized key hvalue
  have hlim : loadLimit t.index.slots.length < t.index.slots.length := by
    simpa using h.sized.room
  obtain ⟨t', ht', -, hrep⟩ := h.rep.insert_added Function.injective_id hlim
    (by rw [length_index]; exact hroom.trans_le h.room) (Finmap.lookup_eq_none.mpr hk) value
  have hins : DenseIndex.insertOrGet t.index key value.toNat = (.added, t') := ht'
  rw [hins] at hans hidx
  refine ⟨hans, hsized, ?_, fun k v hv => ?_, ?_, hcap ▸ h.room⟩
  · rw [hidx, FirstValues.card_keys_insert hk, FirstValues.lookup_insert_eq]
    exact hrep
  · by_cases hkk : k = key
    · subst hkk
      rw [Finmap.lookup_insert] at hv
      exact Option.some.inj hv ▸ hvalue
    · rw [Finmap.lookup_insert_of_ne _ hkk] at hv
      exact h.marked k v hv
  · rw [FirstValues.card_keys_insert hk]
    exact hroom

/-- One operation answers as the map does. -/
theorem Holds.step (h : Holds n t m) {o : Op} (ho : FirstValues.Admits n m o) :
    (t.step o).1 = (FirstValues.step m o).1 ∧ Holds n (t.step o).2 (FirstValues.step m o).2 := by
  cases o with
  | insertOrGet key value =>
    obtain ⟨hvalue, hroom⟩ := ho
    rw [FirstValues.step, DenseTable.step]
    rcases hk : m.lookup key with _ | v
    · have hmem : key ∉ m := Finmap.lookup_eq_none.mp hk
      obtain ⟨hans, hnext⟩ := h.insert_added hmem hvalue (hroom.resolve_left hmem)
      exact ⟨by rw [hans], hnext⟩
    · obtain ⟨hans, hnext⟩ := h.insert_present hk hvalue
      exact ⟨by rw [hans], hnext⟩
  | find key => exact ⟨congrArg Answer.found (h.find key), h⟩
  | contains key =>
    refine ⟨congrArg Answer.member ?_, h⟩
    rw [contains, h.find]
    rcases hk : m.lookup key with _ | v
    · simp [Finmap.lookup_eq_none.mp hk]
    · simp [h.marked key v hk, Finmap.mem_of_lookup_eq_some hk]
  | size => exact ⟨congrArg Answer.count h.size, h⟩
  | clear =>
    obtain ⟨k, hk⟩ := h.sized.pow
    exact ⟨rfl, holds_cleared hk h.sized.room h.room⟩

end Holds

end DenseTable

/-! ### The set of pairs -/

structure PairTable where
  hi : List UInt64
  lo : List UInt32
  ocupado : List UInt8
  cap : ℕ
  size : ℕ

namespace PairTable

def mask (t : PairTable) : ℕ := t.cap - 1

/-- A table with all `cap` slots free. -/
def cleared (cap : ℕ) : PairTable :=
  ⟨List.replicate cap 0, List.replicate cap 0, List.replicate cap 0, cap, 0⟩

def init (maxElements : UInt32) : Option PairTable := (slotCount maxElements.toNat).map cleared

/-- The hash of a pair; the mask comes after. -/
def home (hi : UInt64) (lo : UInt32) : ℕ :=
  (mix64 (hi ^^^ (lo.toUInt64 * 0x9E3779B97F4A7C15))).toUInt32.toNat

/-- The probe loop: the first slot that is free or holds both halves of the pair. -/
def slot (t : PairTable) (hi : UInt64) (lo : UInt32) : Option ℕ :=
  OpenTable.scan (fun i => t.ocupado.getD i 0 == 0)
    (fun i => t.hi.getD i 0 == hi && t.lo.getD i 0 == lo)
    (fun i => (i + 1) &&& t.mask) (t.mask + 1) (home hi lo &&& t.mask)

/-- Whether the pair was inserted, and `overflow`. -/
def insert (t : PairTable) (hi : UInt64) (lo : UInt32) : (Bool × Bool) × PairTable :=
  match t.slot hi lo with
  | none => ((false, true), t)
  | some i =>
    if t.ocupado.getD i 0 = 0 then
      if t.cap * 7 ≤ t.size * 10 then ((false, true), t)
      else
        ((true, false),
          { t with
            hi := t.hi.set i hi
            lo := t.lo.set i lo
            ocupado := t.ocupado.set i 1
            size := t.size + 1 })
    else ((false, false), t)

def contains (t : PairTable) (hi : UInt64) (lo : UInt32) : Bool :=
  match t.slot hi lo with
  | none => false
  | some i => if t.ocupado.getD i 0 = 0 then false else true

def clear (t : PairTable) : PairTable := cleared t.cap

/-! ### As an open table -/

/-- A pair as the rest of the development has it. -/
def pairKey (p : UInt64 × UInt32) : UInt64 × ℕ := (p.1, p.2.toNat)

/-- A pair can be told from its key. -/
theorem pairKey_injective : Function.Injective pairKey := by
  rintro ⟨hi, lo⟩ ⟨hi', lo'⟩ h
  obtain ⟨hhi, hlo⟩ := Prod.mk.inj h
  exact Prod.ext hhi (UInt32.toNat_inj.mp hlo)

/-- The home slot of a pair is that of its key. -/
theorem home_pairKey (hi : UInt64) (lo : UInt32) :
    PairIndex.home (pairKey (hi, lo)) = home hi lo := by
  rw [PairIndex.home, pairKey, UInt64.ofNat_uInt32ToNat, home]

/-- What slot `i` holds. -/
def entryAt (t : PairTable) (i : ℕ) : Option ((UInt64 × ℕ) × Unit) :=
  if t.ocupado.getD i 0 = 0 then none else some (pairKey (t.hi.getD i 0, t.lo.getD i 0), ())

def index (t : PairTable) : PairIndex := ⟨(List.range t.cap).map t.entryAt, t.size⟩

/-- The arrays have `cap` places, and `cap` is a power of two above its own load limit. -/
structure Sized (t : PairTable) : Prop where
  hi : t.hi.length = t.cap
  lo : t.lo.length = t.cap
  ocupado : t.ocupado.length = t.cap
  pow : ∃ m, t.cap = 2 ^ m
  room : loadLimit t.cap < t.cap

@[simp]
theorem length_index (t : PairTable) : t.index.slots.length = t.cap := by simp [index]

@[simp]
theorem size_index (t : PairTable) : t.index.size = t.size := rfl

theorem index_slots (t : PairTable) {i : ℕ} (hi : i < t.cap) :
    t.index.slots[i]? = some (t.entryAt i) := by
  rw [index, List.getElem?_map, List.getElem?_range hi]
  rfl

/-- The loop probes as the open table does. -/
theorem slot_eq {t : PairTable} (h : t.Sized) (hi : UInt64) (lo : UInt32) :
    t.slot hi lo = t.index.slotOf PairIndex.home (pairKey (hi, lo)) := by
  obtain ⟨m, hm⟩ := h.pow
  rw [slot, mask, hm, ← home_pairKey]
  refine OpenTable.scan_eq_slotOf ((length_index t).trans hm)
    (fun i hlt hf => ?_) fun i hlt hf => ?_
  · rw [index_slots t (length_index t ▸ hlt), entryAt, if_pos (by simpa using hf)]
  · rw [index_slots t (length_index t ▸ hlt), entryAt, if_neg (by simpa using hf)]
    refine ⟨_, _, rfl, ?_⟩
    rw [pairKey_injective.eq_iff]
    simp

/-- A slot that a probe finds holds `entryAt`. -/
theorem getD_slots {t : PairTable} (h : t.Sized) {hi : UInt64} {lo : UInt32} {i : ℕ}
    (hs : t.slot hi lo = some i) : i < t.cap ∧ t.index.slots.getD i none = t.entryAt i := by
  rw [slot_eq h] at hs
  have hlt : i < t.index.slots.length := by
    obtain hn | ⟨v, hv⟩ := OpenTable.probe_eq_some hs
    · exact (List.getElem?_eq_some_iff.mp hn).1
    · exact (List.getElem?_eq_some_iff.mp hv).1
  rw [length_index] at hlt
  exact ⟨hlt, by rw [List.getD_eq_getElem?_getD, index_slots t hlt]; rfl⟩

/-- Inserted and overflow, from the answer of the open table. -/
def answerOf : OpenTable.Inserted Unit → Bool × Bool
  | .present () => (false, false)
  | .added => (true, false)
  | .full => (false, true)

/-- **The arrays simulate the open table.** -/
theorem insert_index {t : PairTable} (h : t.Sized) (hi : UInt64) (lo : UInt32) :
    (t.insert hi lo).1 = answerOf (PairIndex.insert t.index hi lo.toNat).1 ∧
      (t.insert hi lo).2.index = (PairIndex.insert t.index hi lo.toNat).2 ∧
      (t.insert hi lo).2.Sized ∧ (t.insert hi lo).2.cap = t.cap := by
  rw [insert, PairIndex.insert, OpenTable.insert, show (hi, lo.toNat) = pairKey (hi, lo) from rfl,
    ← slot_eq h]
  cases hs : t.slot hi lo with
  | none => exact ⟨rfl, rfl, h, rfl⟩
  | some i =>
    obtain ⟨hlt, hget⟩ := getD_slots h hs
    dsimp only
    rw [hget, entryAt, length_index, size_index]
    by_cases hfree : t.ocupado.getD i 0 = 0
    · rw [if_pos hfree, if_pos hfree]
      dsimp only
      by_cases hfull : t.cap * 7 ≤ t.size * 10
      · rw [if_pos hfull, if_pos ((DenseTable.full_iff _ _).mp hfull)]
        exact ⟨rfl, rfl, h, rfl⟩
      · rw [if_neg hfull, if_neg (mt (DenseTable.full_iff _ _).mpr hfull)]
        refine ⟨rfl, ?_, ⟨by simpa using h.hi, by simpa using h.lo, by simpa using h.ocupado,
          h.pow, h.room⟩, rfl⟩
        have hslots : (List.range t.cap).map (entryAt { t with
            hi := t.hi.set i hi, lo := t.lo.set i lo, ocupado := t.ocupado.set i 1,
            size := t.size + 1 }) =
            ((List.range t.cap).map t.entryAt).set i (some (pairKey (hi, lo), ())) := by
          refine OpenTable.map_range_eq_set ?_ fun j _ hj => ?_
          · simp [entryAt, List.getD_eq_getElem?_getD, h.hi, h.lo, h.ocupado, hlt]
          · simp [entryAt, List.getD_eq_getElem?_getD, List.getElem?_set_ne (Ne.symm hj)]
        rw [index, hslots]
        rfl
    · rw [if_neg hfree, if_neg hfree]
      exact ⟨rfl, rfl, h, rfl⟩

/-- The lookup in the arrays is the lookup in the index. -/
theorem contains_index {t : PairTable} (h : t.Sized) (hi : UInt64) (lo : UInt32) :
    t.contains hi lo = PairIndex.contains t.index hi lo.toNat := by
  rw [contains, PairIndex.contains, OpenTable.find,
    show (hi, lo.toNat) = pairKey (hi, lo) from rfl, ← slot_eq h]
  cases hs : t.slot hi lo with
  | none => rfl
  | some i =>
    dsimp only
    rw [(getD_slots h hs).2, entryAt]
    by_cases hfree : t.ocupado.getD i 0 = 0
    · rw [if_pos hfree, if_pos hfree]
      rfl
    · rw [if_neg hfree, if_neg hfree]
      rfl

theorem index_cleared (cap : ℕ) : (cleared cap).index = OpenTable.empty cap := by
  have hnone : (List.range cap).map (cleared cap).entryAt = List.replicate cap none := by
    refine List.eq_replicate_iff.mpr ⟨by simp, fun e he => ?_⟩
    obtain ⟨i, hi, rfl⟩ := List.mem_map.mp he
    simp [entryAt, cleared, List.getD_eq_getElem?_getD, List.mem_range.mp hi]
  rw [index, show (cleared cap).cap = cap from rfl, hnone]
  rfl

theorem sized_cleared {m cap : ℕ} (hpow : cap = 2 ^ m) (hroom : loadLimit cap < cap) :
    (cleared cap).Sized where
  hi := List.length_replicate
  lo := List.length_replicate
  ocupado := List.length_replicate
  pow := ⟨m, hpow⟩
  room := hroom

/-! ### As a finite set -/

inductive Op
  | insert (hi : UInt64) (lo : UInt32)
  | contains (hi : UInt64) (lo : UInt32)
  | size
  | clear

inductive Answer
  | inserted (b overflow : Bool)
  | member (b : Bool)
  | count (n : ℕ)
  | done

def step (t : PairTable) : Op → Answer × PairTable
  | .insert hi lo => (.inserted (t.insert hi lo).1.1 (t.insert hi lo).1.2, (t.insert hi lo).2)
  | .contains hi lo => (.member (t.contains hi lo), t)
  | .size => (.count t.size, t)
  | .clear => (.done, t.clear)

end PairTable

/-- The purpose of the set: the pairs inserted since the last clear. -/
abbrev PairSet := Finset (UInt64 × UInt32)

namespace PairSet

open PairTable

/-- An insertion answers whether the pair is new, and never overflows. -/
def step (s : PairSet) : Op → Answer × PairSet
  | .insert hi lo => (.inserted (decide ((hi, lo) ∉ s)) false, insert (hi, lo) s)
  | .contains hi lo => (.member (decide ((hi, lo) ∈ s)), s)
  | .size => (.count s.card, s)
  | .clear => (.done, ∅)

/-- Insertions of at most `n` distinct pairs. -/
def Admits (n : ℕ) (s : PairSet) : Op → Prop
  | .insert hi lo => (hi, lo) ∈ s ∨ s.card < n
  | _ => True

/-- The set as a map to nothing. -/
def look (s : PairSet) (p : UInt64 × UInt32) : Option Unit := if p ∈ s then some () else none

/-- A new member is looked up from then on. -/
theorem look_insert (s : PairSet) (p : UInt64 × UInt32) :
    look (insert p s) = Function.update (look s) p (some ()) := by
  funext q
  by_cases hq : q = p
  · subst hq
    rw [Function.update_self, look, if_pos (Finset.mem_insert_self q s)]
  · rw [Function.update_of_ne hq, look, look]
    simp only [Finset.mem_insert, hq, false_or]

end PairSet

namespace PairTable

/-- The arrays hold the set, with room for `n` pairs. -/
structure Holds (n : ℕ) (t : PairTable) (s : PairSet) : Prop where
  sized : t.Sized
  rep : OpenTable.Represents PairIndex.home pairKey id t.index s.look s.card
  card : s.card ≤ n
  room : n ≤ loadLimit t.cap

section Holds

variable {n : ℕ} {t : PairTable} {s : PairSet}

/-- A lookup answers membership. -/
theorem Holds.contains (h : Holds n t s) (hi : UInt64) (lo : UInt32) :
    t.contains hi lo = decide ((hi, lo) ∈ s) := by
  rw [contains_index h.sized, PairIndex.contains, show (hi, lo.toNat) = pairKey (hi, lo) from rfl,
    h.rep.find, PairSet.look]
  by_cases hmem : (hi, lo) ∈ s
  · simp [hmem]
  · simp [hmem]

theorem Holds.size (h : Holds n t s) : t.size = s.card := h.rep.size

/-- Every probe loop ends at a slot that is free or holds the pair. -/
theorem Holds.slot (h : Holds n t s) (hi : UInt64) (lo : UInt32) :
    ∃ i, t.slot hi lo = some i ∧ i < t.cap ∧
      (t.ocupado.getD i 0 = 0 ∨ t.hi.getD i 0 = hi ∧ t.lo.getD i 0 = lo) := by
  have hlt : t.index.size < t.index.slots.length := by
    have := h.card
    have := h.room
    have := h.sized.room
    rw [size_index, h.size, length_index]
    omega
  obtain ⟨i, hs, hat⟩ := h.rep.wf.slotOf_isSome hlt (pairKey (hi, lo))
  rw [← slot_eq h.sized] at hs
  obtain ⟨hcap, -⟩ := getD_slots h.sized hs
  refine ⟨i, hs, hcap, ?_⟩
  rw [index_slots t hcap, entryAt] at hat
  by_cases hfree : t.ocupado.getD i 0 = 0
  · exact .inl hfree
  · rw [if_neg hfree] at hat
    obtain hat | ⟨v, hat⟩ := hat
    · simp at hat
    · have hkey := (Prod.mk.inj (Option.some.inj (Option.some.inj hat))).1
      exact .inr (Prod.mk.inj (pairKey_injective hkey))

theorem holds_cleared {k cap : ℕ} (hpow : cap = 2 ^ k) (hroom : loadLimit cap < cap)
    (hn : n ≤ loadLimit cap) : Holds n (cleared cap) ∅ where
  sized := sized_cleared hpow hroom
  rep := by
    rw [index_cleared, Finset.card_empty]
    exact OpenTable.represents_empty cap
  card := by simp
  room := hn

theorem Holds.insert_present (h : Holds n t s) {hi : UInt64} {lo : UInt32} (hk : (hi, lo) ∈ s) :
    (t.insert hi lo).1 = (false, false) ∧ Holds n (t.insert hi lo).2 s := by
  obtain ⟨hans, hidx, hsized, hcap⟩ := insert_index h.sized hi lo
  have hins : PairIndex.insert t.index hi lo.toNat = (.present (), t.index) :=
    h.rep.insert_present (k := (hi, lo)) (if_pos hk) ()
  rw [hins] at hans hidx
  refine ⟨hans, hsized, ?_, h.card, hcap ▸ h.room⟩
  rw [hidx]
  exact h.rep

theorem Holds.insert_added (h : Holds n t s) {hi : UInt64} {lo : UInt32} (hk : (hi, lo) ∉ s)
    (hroom : s.card < n) :
    (t.insert hi lo).1 = (true, false) ∧ Holds n (t.insert hi lo).2 (Insert.insert (hi, lo) s) := by
  obtain ⟨hans, hidx, hsized, hcap⟩ := insert_index h.sized hi lo
  have hlim : loadLimit t.index.slots.length < t.index.slots.length := by
    simpa using h.sized.room
  obtain ⟨t', ht', -, hrep⟩ := h.rep.insert_added (k := (hi, lo)) pairKey_injective hlim
    (by rw [length_index]; exact hroom.trans_le h.room) (if_neg hk) ()
  have hins : PairIndex.insert t.index hi lo.toNat = (.added, t') := ht'
  rw [hins] at hans hidx
  refine ⟨hans, hsized, ?_, ?_, hcap ▸ h.room⟩
  · rw [hidx, Finset.card_insert_of_notMem hk, PairSet.look_insert]
    exact hrep
  · rw [Finset.card_insert_of_notMem hk]
    exact hroom

/-- One operation answers as the set does. -/
theorem Holds.step (h : Holds n t s) {o : Op} (ho : PairSet.Admits n s o) :
    (t.step o).1 = (PairSet.step s o).1 ∧ Holds n (t.step o).2 (PairSet.step s o).2 := by
  cases o with
  | insert hi lo =>
    rw [PairSet.step, PairTable.step]
    by_cases hk : (hi, lo) ∈ s
    · obtain ⟨hans, hnext⟩ := h.insert_present hk
      rw [hans, Finset.insert_eq_of_mem hk]
      exact ⟨by simp [hk], hnext⟩
    · obtain ⟨hans, hnext⟩ := h.insert_added hk (ho.resolve_left hk)
      rw [hans]
      exact ⟨by simp [hk], hnext⟩
  | contains hi lo => exact ⟨congrArg Answer.member (h.contains hi lo), h⟩
  | size => exact ⟨congrArg Answer.count h.size, h⟩
  | clear =>
    obtain ⟨k, hk⟩ := h.sized.pow
    exact ⟨rfl, holds_cleared hk h.sized.room h.room⟩

end Holds

end PairTable

/-! ### From `init` on -/

/-- A table has a power of two of slots. -/
theorem slotCount_pow {maxElements n : ℕ} (h : slotCount maxElements = some n) :
    ∃ m, n = 2 ^ m := by
  obtain ⟨k, -, rfl⟩ := List.mem_map.mp (List.mem_of_find?_eq_some h)
  exact ⟨4 + k, by rw [Nat.pow_add]⟩

/-- A table that is granted holds the empty map, with room for what was asked. -/
theorem DenseTable.holds_init {n : UInt32} {t : DenseTable} (h : DenseTable.init n = some t) :
    DenseTable.Holds n.toNat t ∅ := by
  obtain ⟨cap, hcap, rfl⟩ := Option.map_eq_some_iff.mp h
  obtain ⟨m, hm⟩ := slotCount_pow hcap
  obtain ⟨-, hfit, hroom⟩ := slotCount_eq_some hcap
  exact DenseTable.holds_cleared hm hroom hfit

/-- A set that is granted holds the empty set, with room for what was asked. -/
theorem PairTable.holds_init {n : UInt32} {t : PairTable} (h : PairTable.init n = some t) :
    PairTable.Holds n.toNat t ∅ := by
  obtain ⟨cap, hcap, rfl⟩ := Option.map_eq_some_iff.mp h
  obtain ⟨m, hm⟩ := slotCount_pow hcap
  obtain ⟨-, hfit, hroom⟩ := slotCount_eq_some hcap
  exact PairTable.holds_cleared hm hroom hfit

/-- No insertion that the map admits is refused. -/
theorem DenseTable.Holds.accepts {n : ℕ} {t : DenseTable} {m : FirstValues}
    (h : DenseTable.Holds n t m) {o : DenseTable.Op} (ho : FirstValues.Admits n m o) :
    ∀ v b, (t.step o).1 = .value v b → v ≠ kEmpty := by
  intro v b hans
  rw [(h.step ho).1] at hans
  cases o with
  | insertOrGet key value =>
    rw [FirstValues.step] at hans
    rcases hk : m.lookup key with _ | w
    · rw [hk] at hans
      injection hans with hv
      exact hv ▸ ho.1
    · rw [hk] at hans
      injection hans with hv
      exact hv ▸ h.marked key w hk
  | _ => simp [FirstValues.step] at hans

/-- No insertion that the set admits overflows. -/
theorem PairTable.Holds.accepts {n : ℕ} {t : PairTable} {s : PairSet} (h : PairTable.Holds n t s)
    {o : PairTable.Op} (ho : PairSet.Admits n s o) :
    ∀ b overflow, (t.step o).1 = .inserted b overflow → overflow = false := by
  intro b overflow hans
  rw [(h.step ho).1] at hans
  cases o with
  | insert hi lo =>
    injection hans with hb hover
    exact hover.symm
  | _ => simp [PairSet.step] at hans

/-- **The tables are a finite map and a finite set.** After `init n`, over every run of
operations that inserts at most `n` distinct keys between two clears, each answer is that of the
map of first values, or of the set; no insertion is refused; and at the end the lookups, the size
and the probes agree with it. -/
theorem tables_refine (n : UInt32) :
    (∀ t, DenseTable.init n = some t → ∀ ops,
      Admitted (FirstValues.Admits n.toNat) FirstValues.step ∅ ops →
      let r := runOps DenseTable.step t ops
      let m := runOps FirstValues.step ∅ ops
      r.1 = m.1 ∧ (∀ v b, .value v b ∈ r.1 → v ≠ DenseTable.kEmpty) ∧
        (∀ key, r.2.find key = (m.2.lookup key).getD DenseTable.kEmpty) ∧
        r.2.size = m.2.keys.card ∧
        ∀ key, ∃ i, r.2.slot key = some i ∧ i < r.2.cap ∧
          (r.2.vals.getD i DenseTable.kEmpty = DenseTable.kEmpty ∨ r.2.keys.getD i 0 = key)) ∧
    ∀ t, PairTable.init n = some t → ∀ ops,
      Admitted (PairSet.Admits n.toNat) PairSet.step ∅ ops →
      let r := runOps PairTable.step t ops
      let s := runOps PairSet.step ∅ ops
      r.1 = s.1 ∧ (∀ b o, .inserted b o ∈ r.1 → o = false) ∧
        (∀ hi lo, r.2.contains hi lo = decide ((hi, lo) ∈ s.2)) ∧ r.2.size = s.2.card ∧
        ∀ hi lo, ∃ i, r.2.slot hi lo = some i ∧ i < r.2.cap ∧
          (r.2.ocupado.getD i 0 = 0 ∨ r.2.hi.getD i 0 = hi ∧ r.2.lo.getD i 0 = lo) := by
  constructor
  · intro t ht ops hok r m
    have hinit := DenseTable.holds_init ht
    have hstep : ∀ t m o, DenseTable.Holds n.toNat t m → FirstValues.Admits n.toNat m o →
        (t.step o).1 = (FirstValues.step m o).1 ∧
          DenseTable.Holds n.toNat (t.step o).2 (FirstValues.step m o).2 :=
      fun _ _ _ h ho => h.step ho
    obtain ⟨hans, hend⟩ := runOps_refines hstep ops t ∅ hinit hok
    refine ⟨hans, fun v b hmem => ?_, hend.find, hend.size, hend.slot⟩
    exact forall_mem_runOps (P := fun a => ∀ v b, a = .value v b → v ≠ DenseTable.kEmpty) hstep
      (fun _ _ _ h ho => h.accepts ho) ops t ∅ hinit hok _ hmem v b rfl
  · intro t ht ops hok r s
    have hinit := PairTable.holds_init ht
    have hstep : ∀ t s o, PairTable.Holds n.toNat t s → PairSet.Admits n.toNat s o →
        (t.step o).1 = (PairSet.step s o).1 ∧
          PairTable.Holds n.toNat (t.step o).2 (PairSet.step s o).2 :=
      fun _ _ _ h ho => h.step ho
    obtain ⟨hans, hend⟩ := runOps_refines hstep ops t ∅ hinit hok
    refine ⟨hans, fun b o hmem => ?_, hend.contains, hend.size, hend.slot⟩
    exact forall_mem_runOps (P := fun a => ∀ b o, a = .inserted b o → o = false) hstep
      (fun _ _ _ h ho => h.accepts ho) ops t ∅ hinit hok _ hmem b o rfl

/-- Room for three: the key 0 keeps its first value until the clear, and comes back with another;
a pair is new once. -/
theorem tables_refine_three :
    (runOps DenseTable.step (DenseTable.cleared 16)
        [.insertOrGet 0 5, .insertOrGet 0 9, .find 0, .clear, .insertOrGet 0 9]).1 =
      [.value 5 true, .value 5 false, .found 5, .done, .value 9 true] ∧
    (runOps PairTable.step (PairTable.cleared 16)
        [.insert 0 0, .insert 0 0, .contains 0 1, .size]).1 =
      [.inserted true false, .inserted false false, .member false, .count 1] := by
  have hdense := (tables_refine 3).1 (DenseTable.cleared 16) rfl
    [.insertOrGet 0 5, .insertOrGet 0 9, .find 0, .clear, .insertOrGet 0 9]
    (by simp [Admitted, FirstValues.step, FirstValues.Admits, DenseTable.kEmpty])
  have hpair := (tables_refine 3).2 (PairTable.cleared 16) rfl
    [.insert 0 0, .insert 0 0, .contains 0 1, .size]
    (by simp [Admitted, PairSet.step, PairSet.Admits])
  rw [hdense.1, hpair.1]
  simp [runOps, FirstValues.step, PairSet.step]

end MotorRv
