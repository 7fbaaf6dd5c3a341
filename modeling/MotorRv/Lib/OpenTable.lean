import Mathlib

/-!
# Open addressing with linear probing

A table of fixed size; a key is looked for from its home slot on, one slot after the other around
the end, until it or an empty slot is met. There is no deletion, so an entry stays where its probe
found the first free slot. `WF` says that every stored key is met by its own probe; inserting
keeps it, and under it the table is a finite map whose insertions depend on nothing but the
lookup, the number of entries and the limit — not on the order in which the entries came.

The hash is a parameter; nothing is assumed of it.

Everything rests on how a probe moves when one free slot is filled. A probe that ended elsewhere at
its key is not disturbed (`probe_set`), the new key is met where its own probe found room
(`probe_set_self`), and with a free slot somewhere every probe ends (`probe_isSome`). From these
`insert_added` is assembled; `find_eq_some` then reads a lookup as membership among the entries, and
`find_of_perm` says what an insertion does to every later lookup.

Tables that hold the same entries in different slots, because these were inserted in different
orders, are `Equiv`: they answer alike now and after every further insertion. This is what a table
that is rebuilt from a file is compared by.
-/

namespace Lib

/-- The slots and the number of those in use. -/
structure OpenTable (κ ν : Type*) where
  slots : List (Option (κ × ν))
  size : ℕ

namespace OpenTable

variable {κ ν : Type*} [DecidableEq κ] (home : κ → ℕ)

/-- A table with `n` free slots. -/
def empty (n : ℕ) : OpenTable κ ν := ⟨List.replicate n none, 0⟩

/-- Probe at most `n` slots from slot `i` on: the first that is free or holds the key. -/
def probe (slots : List (Option (κ × ν))) (key : κ) : ℕ → ℕ → Option ℕ
  | 0, _ => none
  | n + 1, i =>
    match slots[i]? with
    | none => none
    | some none => some i
    | some (some (k, _)) =>
      if k = key then some i else probe slots key n ((i + 1) % slots.length)

/-- The slot a key is in, or would go to. -/
def slotOf (t : OpenTable κ ν) (key : κ) : Option ℕ :=
  probe t.slots key t.slots.length (home key % t.slots.length)

def find (t : OpenTable κ ν) (key : κ) : Option ν :=
  match t.slotOf home key with
  | none => none
  | some i => (t.slots.getD i none).map Prod.snd

/-- What an insertion does. -/
inductive Inserted (ν : Type*)
  | present (v : ν)
  | added
  | full
  deriving DecidableEq

/-- Insert unless the key is there; a free slot is refused when `limit` entries are in use. -/
def insert (limit : ℕ) (t : OpenTable κ ν) (key : κ) (v : ν) : Inserted ν × OpenTable κ ν :=
  match t.slotOf home key with
  | none => (.full, t)
  | some i =>
    match t.slots.getD i none with
    | some (_, v') => (.present v', t)
    | none =>
      if limit ≤ t.size then (.full, t)
      else (.added, ⟨t.slots.set i (some (key, v)), t.size + 1⟩)

/-- The entries in slot order. -/
def entries (t : OpenTable κ ν) : List (κ × ν) := t.slots.filterMap id

/-- Every stored key is met by its own probe, and the entries are counted. -/
structure WF (t : OpenTable κ ν) : Prop where
  found : ∀ {i k v}, t.slots[i]? = some (some (k, v)) → t.slotOf home k = some i
  counted : t.size = t.entries.length

/-! ### Probes -/

section Probe

variable {slots : List (Option (κ × ν))} {key : κ}

/-- A probe ends at a free slot or at its key. -/
theorem probe_eq_some {n i j : ℕ} (h : probe slots key n i = some j) :
    slots[j]? = some none ∨ ∃ v, slots[j]? = some (some (key, v)) := by
  induction n generalizing i with
  | zero => simp [probe] at h
  | succ n ih =>
    rw [probe] at h
    split at h
    · simp at h
    · obtain rfl := Option.some.inj h
      exact .inl ‹_›
    · split_ifs at h with hk
      · obtain rfl := Option.some.inj h
        subst hk
        exact .inr ⟨_, ‹_›⟩
      · exact ih h

/-- Filling a free slot does not disturb a probe that ends elsewhere at its key. -/
theorem probe_set {n i j i' : ℕ} {v : ν} {e : κ × ν} (hfree : slots[j]? = some none)
    (h : probe slots key n i = some i') (hkey : slots[i']? = some (some (key, v))) :
    probe (slots.set j (some e)) key n i = some i' := by
  induction n generalizing i with
  | zero => simp [probe] at h
  | succ n ih =>
    rw [probe] at h
    have hne : i ≠ j := by
      rintro rfl
      rw [hfree] at h
      obtain rfl := Option.some.inj h
      simp [hfree] at hkey
    rw [probe, List.getElem?_set_ne (Ne.symm hne), List.length_set]
    split at h
    · simp at h
    · obtain rfl := Option.some.inj h
      rename_i hnone
      simp [hnone] at hkey
    · rename_i k w hsome
      rw [hsome]
      dsimp only
      split_ifs at h ⊢ with hk
      · exact h
      · exact ih h

/-- A key put in the slot its probe found free is met there. -/
theorem probe_set_self {n i j : ℕ} {v : ν} (hfree : slots[j]? = some none)
    (h : probe slots key n i = some j) :
    probe (slots.set j (some (key, v))) key n i = some j := by
  induction n generalizing i with
  | zero => simp [probe] at h
  | succ n ih =>
    rw [probe] at h
    rw [probe, List.length_set]
    by_cases hij : i = j
    · subst hij
      obtain ⟨hlt, -⟩ := List.getElem?_eq_some_iff.mp hfree
      rw [List.getElem?_set_self hlt]
      simp
    · rw [List.getElem?_set_ne (Ne.symm hij)]
      split at h
      · simp at h
      · exact absurd (Option.some.inj h) hij
      · rename_i k w hsome
        rw [hsome]
        dsimp only
        split_ifs at h ⊢ with hk
        · exact h
        · exact ih h

/-- A probe for a key that fails has only seen slots in use. -/
theorem probe_eq_none {n i : ℕ} (hi : i < slots.length) (h : probe slots key n i = none) :
    ∀ m < n, ∃ e, slots[(i + m) % slots.length]? = some (some e) := by
  induction n generalizing i with
  | zero => intro m hm; omega
  | succ n ih =>
    rw [probe] at h
    have hpos : 0 < slots.length := by omega
    split at h
    · rename_i hnone
      rw [List.getElem?_eq_none_iff] at hnone
      omega
    · simp at h
    · rename_i k w hsome
      split_ifs at h
      intro m hm
      cases m with
      | zero => exact ⟨(k, w), by rwa [Nat.add_zero, Nat.mod_eq_of_lt hi]⟩
      | succ m =>
        obtain ⟨e, he⟩ := ih (Nat.mod_lt _ hpos) h m (by omega)
        refine ⟨e, ?_⟩
        rw [← he, Nat.mod_add_mod]
        congr 2
        omega

/-- With a free slot somewhere, every probe around the whole table ends. -/
theorem probe_isSome {i : ℕ} (hi : i < slots.length) (hfree : none ∈ slots) :
    ∃ j, probe slots key slots.length i = some j := by
  by_contra hcon
  have hnone : probe slots key slots.length i = none := by
    rcases h : probe slots key slots.length i with _ | j
    · rfl
    · exact absurd ⟨j, h⟩ hcon
  obtain ⟨j, hj, hget⟩ := List.mem_iff_getElem.mp hfree
  -- the free slot is some number of steps after the start
  obtain ⟨e, he⟩ := probe_eq_none hi hnone ((j + slots.length - i) % slots.length)
    (Nat.mod_lt _ (by omega))
  have hidx : (i + (j + slots.length - i) % slots.length) % slots.length = j := by
    rw [Nat.add_mod_mod, show i + (j + slots.length - i) = j + slots.length by omega,
      Nat.add_mod_right, Nat.mod_eq_of_lt hj]
  rw [hidx, List.getElem?_eq_getElem hj, hget] at he
  simp at he

end Probe

/-! ### The table as a map -/

variable {home} {t : OpenTable κ ν}

omit [DecidableEq κ] in
theorem mem_entries {k : κ} {v : ν} :
    (k, v) ∈ t.entries ↔ ∃ i : ℕ, t.slots[i]? = some (some (k, v)) := by
  rw [entries, List.mem_filterMap]
  constructor
  · rintro ⟨e, hmem, rfl⟩
    obtain ⟨i, hi⟩ := List.mem_iff_getElem?.mp hmem
    exact ⟨i, hi⟩
  · rintro ⟨i, hi⟩
    exact ⟨_, List.mem_iff_getElem?.mpr ⟨i, hi⟩, rfl⟩

/-- A lookup answers exactly the entries. -/
theorem find_eq_some (h : t.WF home) {k : κ} {v : ν} :
    t.find home k = some v ↔ (k, v) ∈ t.entries := by
  rw [mem_entries, find]
  constructor
  · intro hf
    cases hs : t.slotOf home k with
    | none => simp [hs] at hf
    | some i =>
      rw [hs] at hf
      dsimp only at hf
      obtain hn | ⟨w, hw⟩ := probe_eq_some hs
      · simp [List.getD_eq_getElem?_getD, hn] at hf
      · rw [List.getD_eq_getElem?_getD, hw] at hf
        obtain rfl := Option.some.inj hf
        exact ⟨i, hw⟩
  · rintro ⟨i, hi⟩
    rw [h.found hi]
    dsimp only
    rw [List.getD_eq_getElem?_getD, hi]
    rfl

/-- No key is stored twice. -/
theorem nodup_entries (h : t.WF home) : (t.entries.map Prod.fst).Nodup := by
  have hpair : t.slots.Pairwise fun e e' => ∀ k v k' v', e = some (k, v) → e' = some (k', v') →
      k ≠ k' := by
    rw [List.pairwise_iff_getElem]
    rintro i j hi hj hij k v k' v' he he' rfl
    have h1 := h.found (List.getElem?_eq_getElem hi ▸ congrArg some he)
    have h2 := h.found (List.getElem?_eq_getElem hj ▸ congrArg some he')
    have := Option.some.inj (h1.symm.trans h2)
    omega
  rw [List.nodup_iff_pairwise_ne, List.pairwise_map, entries, List.pairwise_filterMap]
  refine hpair.imp fun {e e'} hne b hb b' hb' => ?_
  exact hne b.1 b.2 b'.1 b'.2 (by simpa using hb) (by simpa using hb')

theorem wf_empty (n : ℕ) : (empty n : OpenTable κ ν).WF home where
  found h := by
    rw [empty, List.getElem?_replicate] at h
    split_ifs at h
    simp at h
  counted := by simp [empty, entries]

omit [DecidableEq κ] in
@[simp]
theorem entries_empty (n : ℕ) : (empty n : OpenTable κ ν).entries = [] := by
  simp [empty, entries]

theorem find_empty (n : ℕ) (k : κ) : (empty n : OpenTable κ ν).find home k = none := by
  rcases hf : (empty n : OpenTable κ ν).find home k with _ | v
  · rfl
  · have := (find_eq_some (wf_empty n)).mp hf
    simp at this

omit [DecidableEq κ] in
/-- Filling a free slot adds the entry. -/
theorem perm_entries_set {i : ℕ} {e : κ × ν} (hfree : t.slots[i]? = some none) (n : ℕ) :
    (⟨t.slots.set i (some e), n⟩ : OpenTable κ ν).entries.Perm (e :: t.entries) := by
  obtain ⟨hlt, hget⟩ := List.getElem?_eq_some_iff.mp hfree
  have hsplit : t.slots = t.slots.take i ++ none :: t.slots.drop (i + 1) := by
    rw [← hget, List.getElem_cons_drop hlt, List.take_append_drop]
  have hset : t.slots.set i (some e) = t.slots.take i ++ some e :: t.slots.drop (i + 1) :=
    List.set_eq_take_append_cons_drop.trans (if_pos hlt)
  have h1 : (⟨t.slots.set i (some e), n⟩ : OpenTable κ ν).entries =
      (t.slots.take i).filterMap id ++ e :: (t.slots.drop (i + 1)).filterMap id := by
    simp only [entries, hset, List.filterMap_append]
    rfl
  have h2 : t.entries = (t.slots.take i).filterMap id ++ (t.slots.drop (i + 1)).filterMap id := by
    rw [entries]
    conv_lhs => rw [hsplit]
    simp
  rw [h1, h2]
  exact List.perm_middle

/-- With fewer entries than slots, one is free. -/
theorem WF.none_mem (h : t.WF home) (hlt : t.size < t.slots.length) : none ∈ t.slots := by
  by_contra hall
  have hlen : t.entries.length = t.slots.length := by
    rw [entries, List.length_filterMap_eq_countP, List.countP_eq_length]
    intro e he
    rcases e with _ | e
    · exact absurd he hall
    · rfl
  have := h.counted
  omega

/-- **Insertion.** With room under the limit and the limit below the number of slots, inserting a
new key adds its entry and keeps the table well formed. -/
theorem insert_added {limit : ℕ} (h : t.WF home) (hlim : limit < t.slots.length)
    (hroom : t.size < limit) {k : κ} (hk : t.find home k = none) (v : ν) :
    ∃ t', t.insert home limit k v = (.added, t') ∧ t'.WF home ∧ t'.size = t.size + 1 ∧
      t'.slots.length = t.slots.length ∧ t'.entries.Perm ((k, v) :: t.entries) := by
  have hpos : 0 < t.slots.length := by omega
  have hfree : none ∈ t.slots := h.none_mem (hroom.trans hlim)
  obtain ⟨i, hi⟩ : ∃ i, probe t.slots k t.slots.length (home k % t.slots.length) = some i :=
    probe_isSome (Nat.mod_lt _ hpos) hfree
  have hslot : t.slotOf home k = some i := hi
  -- the probe ends at a free slot, for the key is not in the table
  have hnone : t.slots[i]? = some none := by
    obtain hn | ⟨w, hw⟩ := probe_eq_some hi
    · exact hn
    · rw [find, hslot] at hk
      dsimp only at hk
      rw [List.getD_eq_getElem?_getD, hw] at hk
      simp at hk
  refine ⟨⟨t.slots.set i (some (k, v)), t.size + 1⟩, ?_, ?_, rfl, List.length_set,
    perm_entries_set hnone _⟩
  · rw [insert, hslot]
    dsimp only
    rw [List.getD_eq_getElem?_getD, hnone]
    simp [show ¬ limit ≤ t.size by omega]
  · refine ⟨fun {i' k' v'} hget => ?_, ?_⟩
    · dsimp only at hget
      rw [slotOf]
      dsimp only
      rw [List.length_set]
      -- an entry that was there is still found: its probe does not pass the new one
      by_cases hi' : i' = i
      · subst hi'
        obtain ⟨hlt, -⟩ := List.getElem?_eq_some_iff.mp hnone
        rw [List.getElem?_set_self hlt] at hget
        obtain ⟨rfl, rfl⟩ : k = k' ∧ v = v' := by simpa using hget
        exact probe_set_self hnone hi
      · rw [List.getElem?_set_ne (Ne.symm hi')] at hget
        exact probe_set hnone (h.found hget) hget
    · rw [(perm_entries_set hnone _).length_eq, List.length_cons, h.counted]

/-- A key that is there is answered, and nothing changes. -/
theorem insert_present {limit : ℕ} (h : t.WF home) {k : κ} {v' : ν} (hk : t.find home k = some v')
    (v : ν) : t.insert home limit k v = (.present v', t) := by
  obtain ⟨i, hi⟩ := mem_entries.mp ((find_eq_some h).mp hk)
  rw [insert, h.found hi]
  dsimp only
  rw [List.getD_eq_getElem?_getD, hi]
  rfl

/-- At the limit a new key is refused. -/
theorem insert_full {limit : ℕ} (hroom : limit ≤ t.size) {k : κ} (hk : t.find home k = none)
    (v : ν) : t.insert home limit k v = (.full, t) := by
  rw [insert]
  cases hs : t.slotOf home k with
  | none => rfl
  | some i =>
    dsimp only
    rw [find, hs] at hk
    dsimp only at hk
    rcases hg : t.slots.getD i none with _ | e
    · simp [hroom]
    · rw [hg] at hk
      simp at hk

/-- After an insertion the key is looked up to its value and every other key as before. -/
theorem find_of_perm {t' : OpenTable κ ν} (h : t.WF home) (h' : t'.WF home) {k : κ} {v : ν}
    (hp : t'.entries.Perm ((k, v) :: t.entries)) (hk : t.find home k = none) (k' : κ) :
    t'.find home k' = if k' = k then some v else t.find home k' := by
  refine Option.ext fun w => ?_
  rw [find_eq_some h', hp.mem_iff, List.mem_cons]
  split_ifs with he
  · subst he
    constructor
    · rintro (hw | hw)
      · rw [Option.some_inj]
        exact (Prod.mk.inj hw).2.symm
      · rw [(find_eq_some h).mpr hw] at hk
        simp at hk
    · intro hw
      exact .inl (by rw [Option.some.inj hw])
  · rw [← find_eq_some h, or_iff_right]
    exact fun hw => he (Prod.mk.inj hw).1

/-! ### Tables that cannot be told apart -/

/-- Same size, limits and lookups: what two tables with the same entries, inserted in different
orders, have in common. -/
structure Equiv (home : κ → ℕ) (a b : OpenTable κ ν) : Prop where
  left : a.WF home
  right : b.WF home
  slots : a.slots.length = b.slots.length
  size : a.size = b.size
  find : ∀ k, a.find home k = b.find home k

/-- Tables with the same entries. -/
theorem Equiv.of_perm {a b : OpenTable κ ν} (ha : a.WF home) (hb : b.WF home)
    (hslots : a.slots.length = b.slots.length) (hp : a.entries.Perm b.entries) :
    Equiv home a b where
  left := ha
  right := hb
  slots := hslots
  size := by rw [ha.counted, hb.counted, hp.length_eq]
  find k := by
    refine Option.ext fun v => ?_
    rw [find_eq_some ha, find_eq_some hb, hp.mem_iff]

/-- Insertion answers the same on both and keeps them so. -/
theorem Equiv.insert {a b : OpenTable κ ν} (h : Equiv home a b) {limit : ℕ}
    (hlim : limit < a.slots.length) (k : κ) (v : ν) :
    (a.insert home limit k v).1 = (b.insert home limit k v).1 ∧
      Equiv home (a.insert home limit k v).2 (b.insert home limit k v).2 := by
  rcases hf : a.find home k with _ | w
  · have hf' : b.find home k = none := (h.find k).symm.trans hf
    rcases Nat.lt_or_ge a.size limit with hlt | hge
    · obtain ⟨a', ha, hwa, hsa, hla, hpa⟩ := insert_added h.left hlim hlt hf v
      obtain ⟨b', hb, hwb, hsb, hlb, hpb⟩ := insert_added h.right (h.slots ▸ hlim)
        (h.size ▸ hlt) hf' v
      rw [ha, hb]
      refine ⟨rfl, hwa, hwb, by rw [hla, hlb, h.slots], by rw [hsa, hsb, h.size], fun k' => ?_⟩
      rw [find_of_perm h.left hwa hpa hf, find_of_perm h.right hwb hpb hf', h.find]
    · rw [insert_full hge hf, insert_full (h.size ▸ hge) hf']
      exact ⟨rfl, h⟩
  · rw [insert_present h.left hf, insert_present h.right ((h.find k).symm.trans hf)]
    exact ⟨rfl, h⟩

end OpenTable

end Lib
