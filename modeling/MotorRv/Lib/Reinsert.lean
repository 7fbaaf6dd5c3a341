import MotorRv.Lib.OpenTable

/-!
# Inserting the entries again

The entries of a table, inserted into an empty one in slot order. An entry whose probe went around
the end stands before its home slot: it is inserted when its home slot is still free, and goes
there. So the new table has its entries in the order of the old one exactly when no entry stands
before its home slot, and then the tables are the same.

The first half is an induction over the slots: `upTo m` is the table with only its first `m` slots,
and inserting the entry of the next slot into it gives `upTo (m + 1)`, unless that entry stands
before its home (`insert_upTo`). The second half takes the first wrapped entry and the occupied
stretch behind its home slot; inserted before that stretch is there, it lands in front of entries it
used to follow (`entries_insertAll_ne`). `entries_insertAll_iff` puts the two together.

A table that is saved as the list of its entries and rebuilt by inserting them meets exactly this
question.
-/

namespace Lib

namespace OpenTable

variable {κ ν : Type*} [DecidableEq κ] (home : κ → ℕ)

/-- No entry stands before its home slot. -/
def Unwrapped (t : OpenTable κ ν) : Prop :=
  ∀ i k v, t.slots[i]? = some (some (k, v)) → home k % t.slots.length ≤ i

instance (t : OpenTable κ ν) : Decidable (t.Unwrapped home) :=
  decidable_of_iff (∀ i : Fin t.slots.length, ∀ e ∈ t.slots.get i,
    home e.1 % t.slots.length ≤ i) <| by
    constructor
    · intro h i k v he
      obtain ⟨hlt, hget⟩ := List.getElem?_eq_some_iff.mp he
      exact h ⟨i, hlt⟩ (k, v) hget
    · intro h i e he
      exact h i e.1 e.2 (List.getElem?_eq_some_iff.mpr ⟨i.2, he⟩)

/-- Insert one after the other. -/
def insertAll (limit : ℕ) (t : OpenTable κ ν) (es : List (κ × ν)) : OpenTable κ ν :=
  es.foldl (fun t e => (t.insert home limit e.1 e.2).2) t

omit [DecidableEq κ] in

/-- Entries are inserted one after the other. -/
theorem insertAll_append [DecidableEq κ] (limit : ℕ) (t : OpenTable κ ν) (es fs : List (κ × ν)) :
    insertAll home limit t (es ++ fs) = insertAll home limit (insertAll home limit t es) fs :=
  List.foldl_append

/-- The first slots of a table, with the others free. -/
def upTo (t : OpenTable κ ν) (p : ℕ) : OpenTable κ ν :=
  ⟨t.slots.take p ++ List.replicate (t.slots.length - p) none,
    ((t.slots.take p).filterMap id).length⟩

/-! ### The path of a probe -/

section Probe

variable {slots : List (Option (κ × ν))} {key : κ} {n i j d : ℕ}

/-- A probe passes over slots with other keys. -/
theorem probe_path (hi : i < slots.length) (h : probe slots key n i = some j) :
    ∃ d < n, j = (i + d) % slots.length ∧
      ∀ m < d, ∃ e, slots[(i + m) % slots.length]? = some (some e) ∧ e.1 ≠ key := by
  induction n generalizing i with
  | zero => simp [probe] at h
  | succ n ih =>
    have hpos : 0 < slots.length := by omega
    rw [probe] at h
    split at h
    · cases h
    · obtain rfl := Option.some.inj h
      exact ⟨0, by omega, (Nat.mod_eq_of_lt hi).symm, fun m hm => absurd hm m.not_lt_zero⟩
    · rename_i k w hsome
      split_ifs at h with hk
      · obtain rfl := Option.some.inj h
        exact ⟨0, by omega, (Nat.mod_eq_of_lt hi).symm, fun m hm => absurd hm m.not_lt_zero⟩
      · obtain ⟨d, hd, hj, hpath⟩ := ih (Nat.mod_lt _ hpos) h
        have hshift (m : ℕ) : ((i + 1) % slots.length + m) % slots.length =
            (i + (m + 1)) % slots.length := by
          rw [Nat.mod_add_mod]
          congr 1
          omega
        refine ⟨d + 1, by omega, hj.trans (hshift d), fun m hm => ?_⟩
        cases m with
        | zero => exact ⟨(k, w), by rwa [Nat.add_zero, Nat.mod_eq_of_lt hi], hk⟩
        | succ m =>
          rw [← hshift]
          exact hpath m (by omega)

/-- A probe that passes over other keys ends at the first free slot. -/
theorem probe_of_path (hi : i < slots.length) (hd : d < n)
    (hpath : ∀ m < d, ∃ e, slots[(i + m) % slots.length]? = some (some e) ∧ e.1 ≠ key)
    (hend : slots[(i + d) % slots.length]? = some none) :
    probe slots key n i = some ((i + d) % slots.length) := by
  induction d generalizing i n with
  | zero =>
    obtain ⟨n, rfl⟩ : ∃ n', n = n' + 1 := ⟨n - 1, by omega⟩
    simp only [Nat.add_zero, Nat.mod_eq_of_lt hi] at hend ⊢
    rw [probe, hend]
  | succ d ih =>
    obtain ⟨n, rfl⟩ : ∃ n', n = n' + 1 := ⟨n - 1, by omega⟩
    have hpos : 0 < slots.length := by omega
    have hshift (m : ℕ) : ((i + 1) % slots.length + m) % slots.length =
        (i + (m + 1)) % slots.length := by
      rw [Nat.mod_add_mod]
      congr 1
      omega
    obtain ⟨⟨k, w⟩, hk, hne⟩ := hpath 0 (by omega)
    rw [Nat.add_zero, Nat.mod_eq_of_lt hi] at hk
    rw [probe, hk]
    dsimp only
    rw [if_neg hne, ← hshift d]
    refine ih (n := n) (Nat.mod_lt _ hpos) (by omega) (fun m hm => ?_) (by rwa [hshift])
    rw [hshift]
    exact hpath (m + 1) (by omega)

end Probe

/-! ### Entries that are where they belong -/

variable {home} {t : OpenTable κ ν} {limit p : ℕ}

omit [DecidableEq κ] in

/-- The table up to a slot has all its slots. -/
theorem length_upTo (hp : p ≤ t.slots.length) : (t.upTo p).slots.length = t.slots.length := by
  simp only [upTo, List.length_append, List.length_take, List.length_replicate]
  omega

omit [DecidableEq κ] in

/-- Before the slot the table is as it was. -/
theorem upTo_before {i : ℕ} (hi : i < p) (hp : p ≤ t.slots.length) :
    (t.upTo p).slots[i]? = t.slots[i]? := by
  rw [upTo, List.getElem?_append_left (by rw [List.length_take]; omega),
    List.getElem?_take, if_pos hi]

omit [DecidableEq κ] in

/-- Behind the slot the table is empty. -/
theorem upTo_after {i : ℕ} (hi : p ≤ i) (hn : i < t.slots.length) :
    (t.upTo p).slots[i]? = some none := by
  have hlen : (t.slots.take p).length = p := by
    rw [List.length_take]
    omega
  rw [upTo, List.getElem?_append_right (by omega), hlen, List.getElem?_replicate, if_pos (by omega)]

/-- The first of the slots that are left. -/
theorem replicate_sub {α : Type*} {a : α} {n : ℕ} (hp : p < n) :
    List.replicate (n - p) a = a :: List.replicate (n - (p + 1)) a := by
  rw [← List.replicate_succ]
  congr 1
  omega

omit [DecidableEq κ] in

/-- An empty slot adds nothing. -/
theorem upTo_succ_none (hp : t.slots[p]? = some none) : t.upTo (p + 1) = t.upTo p := by
  obtain ⟨hlt, hget⟩ := List.getElem?_eq_some_iff.mp hp
  rw [upTo, upTo, replicate_sub hlt, List.take_succ_eq_append_getElem hlt, hget]
  simp

omit [DecidableEq κ] in

/-- A slot that is taken adds its entry. -/
theorem upTo_succ_some {e : κ × ν} (hp : t.slots[p]? = some (some e)) :
    t.upTo (p + 1) = ⟨(t.upTo p).slots.set p (some e), (t.upTo p).size + 1⟩ := by
  obtain ⟨hlt, hget⟩ := List.getElem?_eq_some_iff.mp hp
  have hlen : (t.slots.take p).length = p := by
    rw [List.length_take]
    omega
  rw [upTo, upTo, replicate_sub hlt, List.take_succ_eq_append_getElem hlt, hget]
  simp [hlen]

/-- An entry that does not stand before its home slot goes back where it was. -/
theorem insert_upTo (h : t.WF home) {k : κ} {v : ν} (hp : t.slots[p]? = some (some (k, v)))
    (hhome : home k % t.slots.length ≤ p) (hroom : (t.upTo p).size < limit) :
    ((t.upTo p).insert home limit k v).2 = t.upTo (p + 1) := by
  have hlt : p < t.slots.length := (List.getElem?_eq_some_iff.mp hp).1
  have hlen := length_upTo (t := t) hlt.le
  have hi : home k % t.slots.length < t.slots.length := Nat.mod_lt _ (by omega)
  -- the probe that met the entry went straight up
  obtain ⟨d, hd, hend, hpath⟩ := probe_path hi (h.found hp)
  have hstraight : home k % t.slots.length + d = p := by
    rcases Nat.lt_or_ge (home k % t.slots.length + d) t.slots.length with hsmall | hlarge
    · exact ((Nat.mod_eq_of_lt hsmall).symm.trans hend.symm)
    · rw [Nat.mod_eq_sub_mod hlarge, Nat.mod_eq_of_lt (by omega)] at hend
      omega
  have hslot : (t.upTo p).slotOf home k = some p := by
    rw [slotOf, hlen]
    have hfree : (t.upTo p).slots[(home k % t.slots.length + d) % (t.upTo p).slots.length]? =
        some none := by
      rw [hlen, hstraight, Nat.mod_eq_of_lt hlt]
      exact upTo_after le_rfl hlt
    have hover : ∀ m < d, ∃ e, (t.upTo p).slots[(home k % t.slots.length + m) %
        (t.upTo p).slots.length]? = some (some e) ∧ e.1 ≠ k := by
      intro m hm
      obtain ⟨e, he, hne⟩ := hpath m hm
      rw [Nat.mod_eq_of_lt (by omega)] at he
      rw [hlen, Nat.mod_eq_of_lt (by omega), upTo_before (by omega) hlt.le]
      exact ⟨e, he, hne⟩
    rw [probe_of_path (by rwa [hlen]) hd hover hfree, hlen, hstraight, Nat.mod_eq_of_lt hlt]
  have hget : (t.upTo p).slots.getD p none = none := by
    rw [List.getD_eq_getElem?_getD, upTo_after le_rfl hlt]
    rfl
  rw [insert, hslot]
  dsimp only
  rw [hget]
  dsimp only
  rw [if_neg (by omega), upTo_succ_some hp]

omit [DecidableEq κ] in

/-- Up to its last slot a table is itself. -/
theorem upTo_length (h : t.size = t.entries.length) : t.upTo t.slots.length = t := by
  rw [upTo, Nat.sub_self, List.take_length, List.replicate_zero, List.append_nil]
  cases t
  simp only [entries] at h
  rw [h]

omit [DecidableEq κ] in

/-- There are no more entries before a slot than in the table. -/
theorem length_filterMap_take_le (t : OpenTable κ ν) (p : ℕ) :
    ((t.slots.take p).filterMap id).length ≤ t.entries.length := by
  rw [entries]
  conv_rhs => rw [← List.take_append_drop p t.slots, List.filterMap_append, List.length_append]
  exact Nat.le_add_right _ _

/-- The entries of the first slots, inserted into an empty table, stand in these slots, if none of
them stands before its home slot. -/
theorem insertAll_upTo (h : t.WF home) (hroom : t.size ≤ limit) : ∀ {p : ℕ}, p ≤ t.slots.length →
    (∀ i < p, ∀ k v, t.slots[i]? = some (some (k, v)) → home k % t.slots.length ≤ i) →
    insertAll home limit (empty t.slots.length) ((t.slots.take p).filterMap id) = t.upTo p := by
  intro p
  induction p with
  | zero => simp [insertAll, upTo, empty]
  | succ p ih =>
    intro hp hhome
    obtain ⟨e, he⟩ : ∃ e, t.slots[p]? = some e := ⟨_, List.getElem?_eq_getElem hp⟩
    have hget : t.slots[p] = e := (List.getElem?_eq_some_iff.mp he).2
    have hbefore := ih (by omega) fun i hi => hhome i (by omega)
    rw [List.take_succ_eq_append_getElem hp, hget, List.filterMap_append, insertAll_append, hbefore]
    cases e with
    | none =>
      rw [upTo_succ_none he]
      rfl
    | some e =>
      have hsize : ((t.slots.take (p + 1)).filterMap id).length ≤ t.entries.length :=
        length_filterMap_take_le t (p + 1)
      rw [List.take_succ_eq_append_getElem hp, hget, List.filterMap_append, List.length_append,
        ← h.counted] at hsize
      refine insert_upTo h he (hhome p (by omega) e.1 e.2 he) (lt_of_lt_of_le ?_ hroom)
      exact Nat.lt_of_succ_le hsize

/-- A table in which no entry stands before its home slot comes back as it was. -/
theorem insertAll_entries (h : t.WF home) (hroom : t.size ≤ limit) (hhome : t.Unwrapped home) :
    insertAll home limit (empty t.slots.length) t.entries = t := by
  have hall := insertAll_upTo h hroom le_rfl fun i _ => hhome i
  rwa [List.take_length, upTo_length h.counted] at hall

/-! ### An entry before its home slot -/

/-- Insertion leaves the slots in use alone. -/
theorem insert_keeps (t : OpenTable κ ν) (k : κ) (v : ν) :
    (t.insert home limit k v).2.slots.length = t.slots.length ∧
      ∀ (i : ℕ) (e : κ × ν), t.slots[i]? = some (some e) →
        (t.insert home limit k v).2.slots[i]? = some (some e) := by
  rw [insert]
  split
  · exact ⟨rfl, fun _ _ he => he⟩
  · rename_i j hj
    split
    · exact ⟨rfl, fun _ _ he => he⟩
    · rename_i hfree
      split_ifs
      · exact ⟨rfl, fun _ _ he => he⟩
      · refine ⟨List.length_set, fun i e he => ?_⟩
        have hne : j ≠ i := by
          rintro rfl
          rw [List.getD_eq_getElem?_getD, he] at hfree
          cases hfree
        rw [List.getElem?_set_ne hne]
        exact he

/-- An entry stays where it was inserted. -/
theorem insertAll_keeps : ∀ (es : List (κ × ν)) (t : OpenTable κ ν),
    (insertAll home limit t es).slots.length = t.slots.length ∧
      ∀ (i : ℕ) (e : κ × ν), t.slots[i]? = some (some e) →
        (insertAll home limit t es).slots[i]? = some (some e)
  | [], _ => ⟨rfl, fun _ _ he => he⟩
  | (k, v) :: es, t => by
    obtain ⟨hlen, hkeep⟩ : (t.insert home limit k v).2.slots.length = t.slots.length ∧ _ :=
      insert_keeps t k v
    obtain ⟨hlen', hkeep'⟩ := insertAll_keeps es (t.insert home limit k v).2
    exact ⟨hlen'.trans hlen, fun i e he => hkeep' i e (hkeep i e he)⟩

omit [DecidableEq κ] in
theorem length_filterMap_of_forall {l : List (Option (κ × ν))} (h : ∀ x ∈ l, x ≠ none) :
    (l.filterMap id).length = l.length := by
  rw [List.length_filterMap_eq_countP, List.countP_eq_length]
  intro x hx
  exact Option.isSome_iff_ne_none.mpr (h x hx)

/-- The first entry that stands before its home slot, and the slots in use around it. -/
theorem exists_wrapped (h : t.WF home) (hwrap : ¬ t.Unwrapped home) :
    ∃ p k v, t.slots[p]? = some (some (k, v)) ∧ p < home k % t.slots.length ∧
      (∀ i < p, ∀ k v, t.slots[i]? = some (some (k, v)) → home k % t.slots.length ≤ i) ∧
      (∀ i < p, t.slots[i]? ≠ some none) ∧
      ∀ i, home k % t.slots.length ≤ i → t.slots[i]? ≠ some none := by
  classical
  have hsome : ∃ i k v, t.slots[i]? = some (some (k, v)) ∧ i < home k % t.slots.length := by
    simpa [Unwrapped] using hwrap
  obtain ⟨k, v, hp, hlt⟩ := Nat.find_spec hsome
  set p := Nat.find hsome
  have hpn : p < t.slots.length := (List.getElem?_eq_some_iff.mp hp).1
  have hi : home k % t.slots.length < t.slots.length := Nat.mod_lt _ (by omega)
  obtain ⟨d, hd, hend, hpath⟩ := probe_path hi (h.found hp)
  -- its probe went from the home slot to the end, and from the start to the slot
  have haround : home k % t.slots.length + d = p + t.slots.length := by
    rcases Nat.lt_or_ge (home k % t.slots.length + d) t.slots.length with hsmall | hlarge
    · rw [Nat.mod_eq_of_lt hsmall] at hend
      omega
    · rw [Nat.mod_eq_sub_mod hlarge, Nat.mod_eq_of_lt (by omega)] at hend
      omega
  refine ⟨p, k, v, hp, hlt, fun i hip k' v' hk' => ?_, fun i hip hnone => ?_, fun i hhi hnone => ?_⟩
  · by_contra hbig
    exact Nat.find_min hsome hip ⟨k', v', hk', by omega⟩
  · obtain ⟨e, he, -⟩ := hpath (i + t.slots.length - home k % t.slots.length) (by omega)
    rw [show home k % t.slots.length + (i + t.slots.length - home k % t.slots.length) =
      i + t.slots.length by omega, Nat.add_mod_right, Nat.mod_eq_of_lt (by omega), hnone] at he
    cases he
  · have hin : i < t.slots.length := (List.getElem?_eq_some_iff.mp hnone).1
    obtain ⟨e, he, -⟩ := hpath (i - home k % t.slots.length) (by omega)
    rw [show home k % t.slots.length + (i - home k % t.slots.length) = i by omega,
      Nat.mod_eq_of_lt hin, hnone] at he
    cases he

omit [DecidableEq κ] in
/-- The entries around a slot in use. -/
theorem entries_eq_append {e : κ × ν} (hp : t.slots[p]? = some (some e)) :
    t.entries = (t.slots.take p).filterMap id ++ e :: (t.slots.drop (p + 1)).filterMap id := by
  obtain ⟨hlt, hget⟩ := List.getElem?_eq_some_iff.mp hp
  rw [entries]
  conv_lhs => rw [← List.take_append_drop p t.slots, List.drop_eq_getElem_cons hlt, hget]
  rw [List.filterMap_append]
  rfl

omit [DecidableEq κ] in
/-- As many slots are in use as there are before the first wrapped entry and from its home on. -/
theorem le_length_entries {j : ℕ} (hpj : p < j) (hj : j ≤ t.slots.length)
    (hlow : ∀ i < p, t.slots[i]? ≠ some none) (hat : t.slots[p]? ≠ some none)
    (hhigh : ∀ i, j ≤ i → t.slots[i]? ≠ some none) :
    p + 1 + (t.slots.length - j) ≤ t.entries.length := by
  have htake : ((t.slots.take (p + 1)).filterMap id).length = p + 1 := by
    rw [length_filterMap_of_forall, List.length_take]
    · omega
    · rintro x hx rfl
      obtain ⟨i, hi⟩ := List.mem_iff_getElem?.mp hx
      rw [List.getElem?_take] at hi
      split_ifs at hi with hip
      rcases Nat.lt_succ_iff_lt_or_eq.mp hip with hlt | rfl
      · exact hlow i hlt hi
      · exact hat hi
  have hdrop : ((t.slots.drop j).filterMap id).length = t.slots.length - j := by
    rw [length_filterMap_of_forall, List.length_drop]
    rintro x hx rfl
    obtain ⟨i, hi⟩ := List.mem_iff_getElem?.mp hx
    rw [List.getElem?_drop] at hi
    exact hhigh (j + i) (by omega) hi
  have hsub : ((t.slots.take (p + 1)).filterMap id).length ≤
      ((t.slots.take j).filterMap id).length :=
    ((List.take_sublist_take_left hpj).filterMap id).length_le
  have hsum : t.entries.length =
      ((t.slots.take j).filterMap id).length + ((t.slots.drop j).filterMap id).length := by
    rw [← List.length_append, ← List.filterMap_append, List.take_append_drop]
    rfl
  omega

/-- A table in which an entry stands before its home slot comes back in another order. -/
theorem entries_insertAll_ne (h : t.WF home) (hroom : t.size ≤ limit)
    (hwrap : ¬ t.Unwrapped home) :
    (insertAll home limit (empty t.slots.length) t.entries).entries ≠ t.entries := by
  obtain ⟨p, k, v, hp, hlt, hbefore, hlow, hhigh⟩ := exists_wrapped h hwrap
  have hpn : p < t.slots.length := (List.getElem?_eq_some_iff.mp hp).1
  have hi : home k % t.slots.length < t.slots.length := Nat.mod_lt _ (by omega)
  have hlen := length_upTo (t := t) hpn.le
  have hsplit := entries_eq_append hp
  -- the entry goes to its home slot, which is free when its turn comes
  have hfree := upTo_after (t := t) hlt.le hi
  have hslot : (t.upTo p).slotOf home k = some (home k % t.slots.length) := by
    have hgo : probe (t.upTo p).slots k t.slots.length (home k % t.slots.length) = _ :=
      probe_of_path (d := 0) (by rwa [hlen]) (by omega) nofun
        (by rwa [Nat.add_zero, hlen, Nat.mod_eq_of_lt hi])
    rw [slotOf, hlen, hgo, Nat.add_zero, hlen, Nat.mod_eq_of_lt hi]
  have hsize : (t.upTo p).size < limit := by
    have hcount := h.counted
    rw [hsplit, List.length_append, List.length_cons] at hcount
    have : (t.upTo p).size = ((t.slots.take p).filterMap id).length := rfl
    omega
  have hput : ((t.upTo p).insert home limit k v).2.slots[home k % t.slots.length]? =
      some (some (k, v)) := by
    have hget : (t.upTo p).slots.getD (home k % t.slots.length) none = none := by
      rw [List.getD_eq_getElem?_getD, hfree]
      rfl
    rw [insert, hslot]
    dsimp only
    rw [hget]
    dsimp only
    rw [if_neg (by omega), List.getElem?_set_self (by rw [hlen]; exact hi)]
  intro heq
  rw [hsplit, insertAll_append, insertAll_upTo h hroom hpn.le hbefore] at heq
  set u := insertAll home limit (t.upTo p) ((k, v) :: (t.slots.drop (p + 1)).filterMap id)
  obtain ⟨hulen, hukeep⟩ : u.slots.length = _ ∧ _ := insertAll_keeps
    ((t.slots.drop (p + 1)).filterMap id) ((t.upTo p).insert home limit k v).2
  rw [(insert_keeps (t.upTo p) k v).1, hlen] at hulen
  have huput : u.slots[home k % t.slots.length]? = some (some (k, v)) := hukeep _ _ hput
  have husplit := entries_eq_append huput
  have hheq : u.entries = t.entries := heq.trans hsplit.symm
  -- the entry has the same place in both, so as many are before it
  have hnodup : t.entries.Nodup := List.Nodup.of_map _ (nodup_entries h)
  have hplace : t.entries[((t.slots.take p).filterMap id).length]? = some (k, v) := by
    rw [hsplit]
    simp
  have hplace' : t.entries[((u.slots.take (home k % t.slots.length)).filterMap id).length]? =
      some (k, v) := by
    rw [← hheq, husplit]
    simp
  have hsame := (List.getElem?_inj (List.getElem?_eq_some_iff.mp hplace).1 hnodup).mp
    (hplace.trans hplace'.symm)
  -- and then not enough slots are left for the entries after it
  have hcount : t.entries.length = ((u.slots.take (home k % t.slots.length)).filterMap id).length +
      (((u.slots.drop (home k % t.slots.length + 1)).filterMap id).length + 1) := by
    rw [← hheq, husplit, List.length_append, List.length_cons]
  have hafter := List.length_filterMap_le id (u.slots.drop (home k % t.slots.length + 1))
  have hbelow := List.length_filterMap_le id (t.slots.take p)
  have henough := le_length_entries hlt hi.le hlow (by rw [hp]; simp) hhigh
  rw [List.length_drop] at hafter
  rw [List.length_take] at hbelow
  omega

/-- Inserted again, the entries come in the same order exactly when none stands before its home. -/
theorem entries_insertAll_iff (h : t.WF home) (hroom : t.size ≤ limit) :
    (insertAll home limit (empty t.slots.length) t.entries).entries = t.entries ↔
      t.Unwrapped home := by
  constructor
  · intro heq
    by_contra hwrap
    exact entries_insertAll_ne h hroom hwrap heq
  · intro hhome
    rw [insertAll_entries h hroom hhome]

end OpenTable

end Lib
