import Mathlib

/-!
# The ring between one producer and one consumer

Two cursors that only grow, a slot for every remainder, and on each side a copy of the other's
cursor that is read again only when the ring looks full, or empty. Between the first check of a
`claim` or a `peek` and its load of the other cursor the other side can move, and so it can between
any two calls; the steps below are what stands between two such moments.

Each of the four counters lies between two others at all times. From this the ring is a bounded
queue: the items in the slots from `tail` to `head` are those published and not yet popped.

The memory orders of the code are taken at what they are used for: a load of the other side's cursor
sees some earlier value of it together with everything published before. `Reachable` is the set of
states of all interleavings of the two sides, with the items written into a slot in as many parts as
the producer likes.

The invariant is kept by each kind of step (`Inv.loadTail`, `Inv.write`, `Inv.publish`, `Inv.pop`
and so on), under the one condition that `head` does not wrap at `2 ^ 64`. `bounded_fifo` adds what
the answers mean: a null is true at the moment it is given, not merely at some moment in the past.
-/

namespace MotorRv

structure SpscRing (T : Type*) where
  head : UInt64
  tail : UInt64
  tailCache : UInt64
  headCache : UInt64
  slots : List T

namespace SpscRing

variable {T : Type*}

def init [Inhabited T] (cap : UInt64) : SpscRing T :=
  ⟨0, 0, 0, 0, List.replicate cap.toNat default⟩

/-- The slot of a cursor: `cursor & kMask`. -/
def place (cap cursor : UInt64) : ℕ := (cursor &&& (cap - 1)).toNat

/-- `h - tail_cache_ >= Capacity`, with the wrap of the difference. -/
def looksFull (cap : UInt64) (r : SpscRing T) (h : UInt64) : Bool := decide (cap ≤ h - r.tailCache)

/-- `t >= head_cache_`. -/
def looksEmpty (r : SpscRing T) (t : UInt64) : Bool := decide (r.headCache ≤ t)

/-- The test of the producer, as a comparison of numbers. -/
theorem looksFull_iff {cap : UInt64} {r : SpscRing T} {h : UInt64}
    (hle : r.tailCache.toNat ≤ h.toNat) :
    r.looksFull cap h = true ↔ r.tailCache.toNat + cap.toNat ≤ h.toNat := by
  rw [looksFull, decide_eq_true_eq, UInt64.le_iff_toNat_le,
    UInt64.toNat_sub_of_le _ _ (UInt64.le_iff_toNat_le.mpr hle)]
  omega

/-- The test of the consumer, as a comparison of numbers. -/
theorem looksEmpty_iff {r : SpscRing T} {t : UInt64} :
    r.looksEmpty t = true ↔ r.headCache.toNat ≤ t.toNat := by
  rw [looksEmpty, decide_eq_true_eq, UInt64.le_iff_toNat_le]

/-- The places of the items published and not popped, oldest first. -/
def unreadPlaces (cap : UInt64) (r : SpscRing T) : List ℕ :=
  (List.range (r.head - r.tail).toNat).map fun j => place cap (r.tail + UInt64.ofNat j)

/-- The items in these places. -/
def unread [Inhabited T] (cap : UInt64) (r : SpscRing T) : List T :=
  (r.unreadPlaces cap).map fun i => r.slots.getD i default

/-! ### The two sides -/

/-- Where the producer stands: between calls, in a `claim` that found the ring full by its copy of
`tail`, or with a slot. -/
inductive Producer
  | idle
  | loading (h : UInt64)
  | claimed (i : ℕ)

/-- Where the consumer stands: between calls, in a `peek` that found the ring empty by its copy of
`head`, with a slot, or with an item read from it. -/
inductive Consumer (T : Type*)
  | idle
  | loading (t : UInt64)
  | peeked (i : ℕ)
  | taken (i : ℕ) (x : T)

/-- The ring and the two sides, with the items published and those read and popped, so far. -/
structure Sides (T : Type*) where
  ring : SpscRing T
  producer : Producer
  consumer : Consumer T
  published : List T
  received : List T

def Sides.start [Inhabited T] (cap : UInt64) : Sides T := ⟨SpscRing.init cap, .idle, .idle, [], []⟩

/-- The atomic steps. A `write` gives a slot its new content, in whole or in part, and may come any
number of times, as may a `read`. -/
inductive Act (T : Type*)
  | claim
  | loadTail
  | write (x : T)
  | publish
  | peek
  | loadHead
  | read
  | pop
  | available

/-- What a step answers: the slot of a `claim` or a `peek` or null, or that the cursor of the other
side is to be loaded; the item read; the number of items. -/
inductive Answer (T : Type*)
  | claimed (slot : Option ℕ)
  | peeked (slot : Option ℕ)
  | loads
  | item (x : T)
  | count (n : UInt64)
  | done

/-- One step; none when the side that would take it is not at that point. -/
def step [Inhabited T] (cap : UInt64) (w : Sides T) : Act T → Option (Answer T × Sides T)
  | .claim =>
    match w.producer with
    | .loading _ => none
    | _ =>
      if w.ring.looksFull cap w.ring.head then
        some (.loads, { w with producer := .loading w.ring.head })
      else
        some (.claimed (place cap w.ring.head),
          { w with producer := .claimed (place cap w.ring.head) })
  | .loadTail =>
    match w.producer with
    | .loading h =>
      let r := { w.ring with tailCache := w.ring.tail }
      if r.looksFull cap h then some (.claimed none, { w with ring := r, producer := .idle })
      else some (.claimed (place cap h), { w with ring := r, producer := .claimed (place cap h) })
    | _ => none
  | .write x =>
    match w.producer with
    | .claimed i => some (.done, { w with ring := { w.ring with slots := w.ring.slots.set i x } })
    | _ => none
  | .publish =>
    match w.producer with
    | .claimed _ =>
      some (.done,
        { w with
          ring := { w.ring with head := w.ring.head + 1 }
          producer := .idle
          published := w.published ++ [w.ring.slots.getD (place cap w.ring.head) default] })
    | _ => none
  | .peek =>
    match w.consumer with
    | .loading _ => none
    | _ =>
      if w.ring.looksEmpty w.ring.tail then
        some (.loads, { w with consumer := .loading w.ring.tail })
      else
        some (.peeked (place cap w.ring.tail),
          { w with consumer := .peeked (place cap w.ring.tail) })
  | .loadHead =>
    match w.consumer with
    | .loading t =>
      let r := { w.ring with headCache := w.ring.head }
      if r.looksEmpty t then some (.peeked none, { w with ring := r, consumer := .idle })
      else some (.peeked (place cap t), { w with ring := r, consumer := .peeked (place cap t) })
    | _ => none
  | .read =>
    match w.consumer with
    | .peeked i | .taken i _ =>
      some (.item (w.ring.slots.getD i default),
        { w with consumer := .taken i (w.ring.slots.getD i default) })
    | _ => none
  | .pop =>
    match w.consumer with
    | .taken _ x =>
      some (.done,
        { w with
          ring := { w.ring with tail := w.ring.tail + 1 }
          consumer := .idle
          received := w.received ++ [x] })
    | _ => none
  | .available =>
    match w.consumer with
    | .loading _ => none
    | _ =>
      some (.count (w.ring.head - w.ring.tail),
        { w with ring := { w.ring with headCache := w.ring.head } })

/-- The states that some interleaving of the two sides comes to. -/
inductive Reachable [Inhabited T] (cap : UInt64) : Sides T → Prop
  | start : Reachable cap (.start cap)
  | step {w w' : Sides T} {a : Act T} {ans : Answer T} :
      Reachable cap w → step cap w a = some (ans, w') → Reachable cap w'

/-- The outcomes of a step, each with what it found. -/
inductive Takes [Inhabited T] (cap : UInt64) (w : Sides T) : Answer T → Sides T → Prop
  | claimLoads (hfull : w.ring.looksFull cap w.ring.head = true) :
      Takes cap w .loads { w with producer := .loading w.ring.head }
  | claim (hroom : ¬ w.ring.looksFull cap w.ring.head = true) :
      Takes cap w (.claimed (place cap w.ring.head))
        { w with producer := .claimed (place cap w.ring.head) }
  | claimNull {h : UInt64} (hp : w.producer = .loading h)
      (hfull : { w.ring with tailCache := w.ring.tail }.looksFull cap h = true) :
      Takes cap w (.claimed none)
        { w with ring := { w.ring with tailCache := w.ring.tail }, producer := .idle }
  | claimLoaded {h : UInt64} (hp : w.producer = .loading h)
      (hroom : ¬ { w.ring with tailCache := w.ring.tail }.looksFull cap h = true) :
      Takes cap w (.claimed (place cap h))
        { w with
          ring := { w.ring with tailCache := w.ring.tail }
          producer := .claimed (place cap h) }
  | write {i : ℕ} (hp : w.producer = .claimed i) (x : T) :
      Takes cap w .done { w with ring := { w.ring with slots := w.ring.slots.set i x } }
  | publish {i : ℕ} (hp : w.producer = .claimed i) :
      Takes cap w .done
        { w with
          ring := { w.ring with head := w.ring.head + 1 }
          producer := .idle
          published := w.published ++ [w.ring.slots.getD (place cap w.ring.head) default] }
  | peekLoads (hempty : w.ring.looksEmpty w.ring.tail = true) :
      Takes cap w .loads { w with consumer := .loading w.ring.tail }
  | peek (hitem : ¬ w.ring.looksEmpty w.ring.tail = true) :
      Takes cap w (.peeked (place cap w.ring.tail))
        { w with consumer := .peeked (place cap w.ring.tail) }
  | peekNull {t : UInt64} (hc : w.consumer = .loading t)
      (hempty : { w.ring with headCache := w.ring.head }.looksEmpty t = true) :
      Takes cap w (.peeked none)
        { w with ring := { w.ring with headCache := w.ring.head }, consumer := .idle }
  | peekLoaded {t : UInt64} (hc : w.consumer = .loading t)
      (hitem : ¬ { w.ring with headCache := w.ring.head }.looksEmpty t = true) :
      Takes cap w (.peeked (place cap t))
        { w with
          ring := { w.ring with headCache := w.ring.head }
          consumer := .peeked (place cap t) }
  | read {i : ℕ} (hc : w.consumer = .peeked i ∨ ∃ x, w.consumer = .taken i x) :
      Takes cap w (.item (w.ring.slots.getD i default))
        { w with consumer := .taken i (w.ring.slots.getD i default) }
  | pop {i : ℕ} {x : T} (hc : w.consumer = .taken i x) :
      Takes cap w .done
        { w with
          ring := { w.ring with tail := w.ring.tail + 1 }
          consumer := .idle
          received := w.received ++ [x] }
  | available (hc : ∀ t, w.consumer ≠ .loading t) :
      Takes cap w (.count (w.ring.head - w.ring.tail))
        { w with ring := { w.ring with headCache := w.ring.head } }

/-- Every step has one of these outcomes. -/
theorem takes_of_step [Inhabited T] {cap : UInt64} {w w' : Sides T} {a : Act T} {ans : Answer T}
    (hs : step cap w a = some (ans, w')) : Takes cap w ans w' := by
  cases a with
  | claim =>
    rw [step] at hs
    split at hs
    · simp at hs
    · split_ifs at hs with hfull <;> obtain ⟨rfl, rfl⟩ := Prod.mk.inj (Option.some.inj hs)
      · exact .claimLoads hfull
      · exact .claim hfull
  | loadTail =>
    rw [step] at hs
    split at hs
    · rename_i h hp
      dsimp only at hs
      split_ifs at hs with hfull <;> obtain ⟨rfl, rfl⟩ := Prod.mk.inj (Option.some.inj hs)
      · exact .claimNull hp hfull
      · exact .claimLoaded hp hfull
    · simp at hs
  | write x =>
    rw [step] at hs
    split at hs
    · rename_i i hp
      obtain ⟨rfl, rfl⟩ := Prod.mk.inj (Option.some.inj hs)
      exact .write hp x
    · simp at hs
  | publish =>
    rw [step] at hs
    split at hs
    · rename_i i hp
      obtain ⟨rfl, rfl⟩ := Prod.mk.inj (Option.some.inj hs)
      exact .publish hp
    · simp at hs
  | peek =>
    rw [step] at hs
    split at hs
    · simp at hs
    · split_ifs at hs with hempty <;> obtain ⟨rfl, rfl⟩ := Prod.mk.inj (Option.some.inj hs)
      · exact .peekLoads hempty
      · exact .peek hempty
  | loadHead =>
    rw [step] at hs
    split at hs
    · rename_i t hc
      dsimp only at hs
      split_ifs at hs with hempty <;> obtain ⟨rfl, rfl⟩ := Prod.mk.inj (Option.some.inj hs)
      · exact .peekNull hc hempty
      · exact .peekLoaded hc hempty
    · simp at hs
  | read =>
    rw [step] at hs
    split at hs
    · rename_i i hc
      obtain ⟨rfl, rfl⟩ := Prod.mk.inj (Option.some.inj hs)
      exact .read (.inl hc)
    · rename_i i x hc
      obtain ⟨rfl, rfl⟩ := Prod.mk.inj (Option.some.inj hs)
      exact .read (.inr ⟨x, hc⟩)
    · simp at hs
  | pop =>
    rw [step] at hs
    split at hs
    · rename_i i x hc
      obtain ⟨rfl, rfl⟩ := Prod.mk.inj (Option.some.inj hs)
      exact .pop hc
    · simp at hs
  | available =>
    rw [step] at hs
    split at hs
    · simp at hs
    · rename_i hc
      obtain ⟨rfl, rfl⟩ := Prod.mk.inj (Option.some.inj hs)
      exact .available hc

/-! ### The invariant -/

variable {cap : UInt64}

/-- What the producer's position says: its slot is that of `head`, and free by its copy. -/
def Producer.Fits (cap : UInt64) (r : SpscRing T) : Producer → Prop
  | .idle => True
  | .loading h => h = r.head
  | .claimed i => i = place cap r.head ∧ r.head.toNat < r.tailCache.toNat + cap.toNat

/-- What the consumer's position says: its slot is that of `tail`, filled by its copy, and the item
it read is the oldest unread one. -/
def Consumer.Fits (cap : UInt64) (r : SpscRing T) (oldest : Option T) : Consumer T → Prop
  | .idle => True
  | .loading t => t = r.tail
  | .peeked i => i = place cap r.tail ∧ r.tail.toNat < r.headCache.toNat
  | .taken i x => i = place cap r.tail ∧ r.tail.toNat < r.headCache.toNat ∧ oldest = some x

/-- A slot that may be read is that of `tail`, read before or not. -/
theorem Consumer.Fits.oldest {r : SpscRing T} {o : Option T} {c : Consumer T} {i : ℕ}
    (h : c.Fits cap r o) (hc : c = .peeked i ∨ ∃ x, c = .taken i x) :
    i = place cap r.tail ∧ r.tail.toNat < r.headCache.toNat := by
  obtain rfl | ⟨x, rfl⟩ := hc
  · exact h
  · exact ⟨h.1, h.2.1⟩

/-- **The four counters.** `tail_cache ≤ tail ≤ head_cache ≤ head ≤ tail_cache + cap`; the slots
hold the items from `tail` to `head`. -/
structure Inv (cap : UInt64) (w : Sides T) : Prop where
  length : w.ring.slots.length = cap.toNat
  head : w.ring.head.toNat = w.published.length
  tail : w.ring.tail.toNat = w.received.length
  tailCache : w.ring.tailCache.toNat ≤ w.ring.tail.toNat
  tail_le : w.ring.tail.toNat ≤ w.ring.headCache.toNat
  headCache : w.ring.headCache.toNat ≤ w.ring.head.toNat
  bound : w.ring.head.toNat ≤ w.ring.tailCache.toNat + cap.toNat
  received : w.received = w.published.take w.received.length
  held : ∀ j, w.ring.tail.toNat ≤ j → j < w.ring.head.toNat →
    w.ring.slots[j % cap.toNat]? = w.published[j]?
  producer : w.producer.Fits cap w.ring
  consumer : w.consumer.Fits cap w.ring w.published[w.ring.tail.toNat]?

/-! ### Cursors as numbers -/

section Cursors

/-- The mask is the remainder for a power of two. -/
theorem place_eq (hcap : ∃ k, cap.toNat = 2 ^ k) (c : UInt64) :
    place cap c = c.toNat % cap.toNat := by
  obtain ⟨k, hk⟩ := hcap
  have hpos : 0 < 2 ^ k := Nat.two_pow_pos k
  have hone : (1 : UInt64) ≤ cap := by
    rw [UInt64.le_iff_toNat_le, hk]
    exact hpos
  rw [place, UInt64.toNat_and, UInt64.toNat_sub_of_le _ _ hone, hk]
  exact Nat.and_two_pow_sub_one_eq_mod _ k

/-- Two numbers less than `n` apart have different remainders. -/
theorem mod_ne_of_lt {n i j : ℕ} (hij : i < j) (hj : j < i + n) : i % n ≠ j % n := by
  intro h
  have hmod : (j - i) % n = 0 := Nat.sub_mod_eq_zero_of_mod_eq h.symm
  rw [Nat.mod_eq_of_lt (by omega)] at hmod
  omega

theorem toNat_succ {c : UInt64} (h : c.toNat + 1 < 2 ^ 64) : (c + 1).toNat = c.toNat + 1 := by
  rw [UInt64.toNat_add, UInt64.toNat_one, Nat.mod_eq_of_lt h]

end Cursors

/-! ### One step -/

section Steps

variable {w : Sides T}

/-- The ring begins empty. -/
theorem inv_start [Inhabited T] : Inv cap (.start cap : Sides T) where
  length := List.length_replicate
  head := rfl
  tail := rfl
  tailCache := le_rfl
  tail_le := le_rfl
  headCache := le_rfl
  bound := Nat.zero_le _
  received := rfl
  held j _ hj := absurd hj (Nat.not_lt_zero j)
  producer := trivial
  consumer := trivial

/-- The producer takes another position. -/
theorem Inv.setProducer (h : Inv cap w) {p : Producer} (hp : p.Fits cap w.ring) :
    Inv cap { w with producer := p } :=
  { h with producer := hp }

/-- The consumer takes another position. -/
theorem Inv.setConsumer (h : Inv cap w) {c : Consumer T}
    (hc : c.Fits cap w.ring w.published[w.ring.tail.toNat]?) :
    Inv cap { w with consumer := c } :=
  { h with consumer := hc }

/-- The load of `tail`, whatever the producer then does. -/
theorem Inv.loadTail (h : Inv cap w) {p : Producer}
    (hp : p.Fits cap { w.ring with tailCache := w.ring.tail }) :
    Inv cap { w with ring := { w.ring with tailCache := w.ring.tail }, producer := p } :=
  { h with
    tailCache := le_rfl
    bound := h.bound.trans (Nat.add_le_add_right h.tailCache _)
    producer := hp }

/-- The load of `head`, whatever the consumer then does. -/
theorem Inv.loadHead (h : Inv cap w) {c : Consumer T}
    (hc : c.Fits cap { w.ring with headCache := w.ring.head } w.published[w.ring.tail.toNat]?) :
    Inv cap { w with ring := { w.ring with headCache := w.ring.head }, consumer := c } :=
  { h with
    tail_le := h.tail_le.trans h.headCache
    headCache := le_rfl
    consumer := hc }

/-- The slot of a claim holds no unread item, so writing it disturbs none. -/
theorem Inv.write (h : Inv cap w) (hcap : ∃ k, cap.toNat = 2 ^ k) {i : ℕ}
    (hp : w.producer = .claimed i) (x : T) :
    Inv cap { w with ring := { w.ring with slots := w.ring.slots.set i x } } := by
  have hfits := h.producer
  rw [hp] at hfits
  obtain ⟨hi, hfree⟩ := hfits
  refine { h with length := (List.length_set).trans h.length, held := ?_ }
  intro j (hj : w.ring.tail.toNat ≤ j) (hj' : j < w.ring.head.toNat)
  have hne : j % cap.toNat ≠ w.ring.head.toNat % cap.toNat :=
    mod_ne_of_lt hj' (by have := h.tailCache; omega)
  rw [place_eq hcap] at hi
  rw [List.getElem?_set_ne (by rw [hi]; exact Ne.symm hne)]
  exact h.held j hj hj'

/-- Publishing the claimed slot appends its item. -/
theorem Inv.publish [Inhabited T] (h : Inv cap w) (hcap : ∃ k, cap.toNat = 2 ^ k) {i : ℕ}
    (hp : w.producer = .claimed i) (hlt : w.published.length + 1 < 2 ^ 64) :
    Inv cap { w with
      ring := { w.ring with head := w.ring.head + 1 }
      producer := .idle
      published := w.published ++ [w.ring.slots.getD (place cap w.ring.head) default] } := by
  have hfits := h.producer
  rw [hp] at hfits
  obtain ⟨-, hfree⟩ := hfits
  have hsucc : (w.ring.head + 1).toNat = w.ring.head.toNat + 1 := toNat_succ (h.head ▸ hlt)
  have hpos : 0 < cap.toNat := by
    obtain ⟨k, hk⟩ := hcap
    exact hk ▸ Nat.two_pow_pos k
  -- the consumer is never ahead of the producer
  have hle : w.received.length ≤ w.published.length := by
    have := h.tail_le
    have := h.headCache
    have := h.head
    have := h.tail
    omega
  refine { h with
    head := by simp [hsucc, h.head]
    headCache := by rw [hsucc]; exact h.headCache.trans (Nat.le_succ _)
    bound := by rw [hsucc]; exact hfree
    received := by rw [List.take_append_of_le_length hle]; exact h.received
    held := fun j hj hj' => ?_
    producer := trivial
    consumer := ?_ }
  · rw [hsucc] at hj'
    dsimp only
    rcases Nat.lt_or_ge j w.ring.head.toNat with hlt | hge
    · rw [h.held j hj hlt, List.getElem?_append_left (h.head ▸ hlt)]
    -- the new item is the one in the claimed slot
    · obtain rfl : j = w.ring.head.toNat := by omega
      have hmod : w.ring.head.toNat % cap.toNat < w.ring.slots.length := by
        rw [h.length]
        exact Nat.mod_lt _ hpos
      rw [place_eq hcap, h.head, List.getElem?_append_right le_rfl, Nat.sub_self,
        List.getElem?_cons_zero, ← h.head, List.getD_eq_getElem?_getD,
        List.getElem?_eq_getElem hmod]
      rfl
  · have hold := h.consumer
    rcases hc : w.consumer with _ | t | i | ⟨i, x⟩ <;> rw [hc] at hold
    · trivial
    · exact hold
    · exact hold
    -- the item that the consumer read is an older one, which stays where it was
    · obtain ⟨hi, hcache, hx⟩ := hold
      refine ⟨hi, hcache, ?_⟩
      dsimp only
      rw [List.getElem?_append_left (by have := h.headCache; have := h.head; omega)]
      exact hx

/-- Popping takes the oldest unread item, which is the one that was read. -/
theorem Inv.pop (h : Inv cap w) {i : ℕ} {x : T} (hc : w.consumer = .taken i x) :
    Inv cap { w with
      ring := { w.ring with tail := w.ring.tail + 1 }
      consumer := .idle
      received := w.received ++ [x] } := by
  have hfits := h.consumer
  rw [hc] at hfits
  obtain ⟨-, hcache, hx⟩ := hfits
  have hsucc : (w.ring.tail + 1).toNat = w.ring.tail.toNat + 1 :=
    toNat_succ (lt_of_le_of_lt hcache w.ring.headCache.toNat_lt)
  have hlt : w.received.length < w.published.length := by
    have := h.headCache
    have := h.head
    have := h.tail
    omega
  refine { h with
    tail := by simp [hsucc, h.tail]
    tailCache := by rw [hsucc]; exact h.tailCache.trans (Nat.le_succ _)
    tail_le := by rw [hsucc]; exact hcache
    received := ?_
    held := fun j hj hj' => h.held j ?_ hj'
    consumer := trivial }
  · rw [h.tail, List.getElem?_eq_getElem hlt] at hx
    rw [List.length_append, List.length_singleton, List.take_add_one,
      List.getElem?_eq_getElem hlt, hx, ← h.received]
    rfl
  · rw [hsucc] at hj
    omega

/-- The item at the consumer's slot is the oldest unread one. -/
theorem Inv.oldest [Inhabited T] (h : Inv cap w) (hcap : ∃ k, cap.toNat = 2 ^ k)
    (hlt : w.ring.tail.toNat < w.ring.headCache.toNat) :
    w.published[w.ring.tail.toNat]? =
      some (w.ring.slots.getD (place cap w.ring.tail) default) := by
  have hhead := lt_of_lt_of_le hlt h.headCache
  have hget := h.held w.ring.tail.toNat le_rfl hhead
  rw [place_eq hcap, List.getD_eq_getElem?_getD, hget,
    List.getElem?_eq_getElem (h.head ▸ hhead)]
  rfl

/-- **Every step keeps the invariant**, as long as `head` does not wrap. -/
theorem Inv.step [Inhabited T] {w' : Sides T} {ans : Answer T} (h : Inv cap w)
    (hcap : ∃ k, cap.toNat = 2 ^ k) (hs : Takes cap w ans w')
    (hlt : w'.published.length < 2 ^ 64) : Inv cap w' := by
  have hproducer := h.producer
  have hconsumer := h.consumer
  cases hs with
  | claimLoads hfull => exact h.setProducer rfl
  -- there is room by the copy of the tail, so there is by the tail
  | claim hroom =>
    rw [looksFull_iff (h.tailCache.trans (h.tail_le.trans h.headCache))] at hroom
    exact h.setProducer ⟨rfl, Nat.lt_of_not_le hroom⟩
  | claimNull hp hfull => exact h.loadTail trivial
  | claimLoaded hp hroom =>
    rw [hp] at hproducer
    obtain rfl := hproducer
    rw [looksFull_iff (h.tail_le.trans h.headCache)] at hroom
    exact h.loadTail ⟨rfl, Nat.lt_of_not_le hroom⟩
  | write hp x => exact h.write hcap hp x
  | publish hp => exact h.publish hcap hp (by simpa using hlt)
  | peekLoads hempty => exact h.setConsumer rfl
  | peek hitem =>
    rw [looksEmpty_iff] at hitem
    exact h.setConsumer ⟨rfl, Nat.lt_of_not_le hitem⟩
  | peekNull hc hempty => exact h.loadHead trivial
  | peekLoaded hc hitem =>
    rw [hc] at hconsumer
    obtain rfl := hconsumer
    rw [looksEmpty_iff] at hitem
    exact h.loadHead ⟨rfl, Nat.lt_of_not_le hitem⟩
  | @read i hc =>
    obtain ⟨rfl, hcache⟩ := hconsumer.oldest hc
    exact h.setConsumer ⟨rfl, hcache, h.oldest hcap hcache⟩
  | pop hc => exact h.pop hc
  -- counting reloads the head, which only grows: what was peeked stays unread
  | available hc =>
    refine h.loadHead ?_
    rcases hcons : w.consumer with _ | t | i | ⟨i, x⟩ <;> rw [hcons] at hconsumer
    · trivial
    · exact hconsumer
    · exact ⟨hconsumer.1, lt_of_lt_of_le hconsumer.2 h.headCache⟩
    · exact ⟨hconsumer.1, lt_of_lt_of_le hconsumer.2.1 h.headCache, hconsumer.2.2⟩

/-- No step takes back what was published. -/
theorem Takes.length_published_le [Inhabited T] {w' : Sides T} {ans : Answer T}
    (hs : Takes cap w ans w') : w.published.length ≤ w'.published.length := by
  cases hs with
  | publish hp => simp
  | _ => exact le_rfl

/-- **Every interleaving keeps the invariant.** -/
theorem Reachable.inv [Inhabited T] (hcap : ∃ k, cap.toNat = 2 ^ k) (hw : Reachable cap w)
    (hlt : w.published.length < 2 ^ 64) : Inv cap w := by
  induction hw with
  | start => exact inv_start
  | step _ hs ih =>
    have htakes := takes_of_step hs
    exact (ih (lt_of_le_of_lt htakes.length_published_le hlt)).step hcap htakes hlt

end Steps

/-! ### The ring as a queue -/

section Queue

variable {w : Sides T}

/-- The unread items are in the slots of the numbers from `tail` to `head`. -/
theorem Inv.unreadPlaces_eq (h : Inv cap w) (hcap : ∃ k, cap.toNat = 2 ^ k) :
    w.ring.unreadPlaces cap =
      (List.range (w.published.length - w.received.length)).map fun j =>
        (w.received.length + j) % cap.toNat := by
  have hle := h.tail_le.trans h.headCache
  have hhead := w.ring.head.toNat_lt
  rw [unreadPlaces, UInt64.toNat_sub_of_le _ _ (UInt64.le_iff_toNat_le.mpr hle), h.head, h.tail]
  refine List.map_congr_left fun j hj => ?_
  rw [List.mem_range] at hj
  rw [h.head] at hhead
  have hj64 : j < 2 ^ 64 := by omega
  have hsum : w.received.length + j < 2 ^ 64 := by omega
  rw [place_eq hcap, UInt64.toNat_add, UInt64.toNat_ofNat', Nat.mod_eq_of_lt hj64, h.tail,
    Nat.mod_eq_of_lt hsum]

/-- They are the published items that were not received. -/
theorem Inv.unread_eq [Inhabited T] (h : Inv cap w) (hcap : ∃ k, cap.toNat = 2 ^ k) :
    w.ring.unread cap = w.published.drop w.received.length := by
  rw [unread, h.unreadPlaces_eq hcap, List.map_map]
  refine List.ext_getElem? fun j => ?_
  rw [List.getElem?_map, List.getElem?_drop]
  rcases Nat.lt_or_ge j (w.published.length - w.received.length) with hj | hj
  · have hget := h.held (w.received.length + j) (by rw [h.tail]; omega) (by rw [h.head]; omega)
    have hlt : w.received.length + j < w.published.length := by omega
    rw [List.getElem?_range hj, List.getElem?_eq_getElem hlt]
    rw [List.getElem?_eq_getElem hlt] at hget
    simp [List.getD_eq_getElem?_getD, hget]
  · rw [List.getElem?_eq_none (by simpa using hj), List.getElem?_eq_none (by omega)]
    rfl

/-- As many elements are unread as the cursors are apart. -/
theorem Inv.length_unread [Inhabited T] (h : Inv cap w) (hcap : ∃ k, cap.toNat = 2 ^ k) :
    (w.ring.unread cap).length = w.ring.head.toNat - w.ring.tail.toNat := by
  rw [h.unread_eq hcap, List.length_drop, h.head, h.tail]

/-- A slot that is free by the producer's copy of `tail` holds no unread item. -/
theorem Inv.notMem_unreadPlaces (h : Inv cap w) (hcap : ∃ k, cap.toNat = 2 ^ k)
    (hlt : w.ring.head.toNat < w.ring.tail.toNat + cap.toNat) :
    place cap w.ring.head ∉ w.ring.unreadPlaces cap := by
  rw [h.unreadPlaces_eq hcap, place_eq hcap]
  intro hmem
  obtain ⟨j, hj, heq⟩ := List.mem_map.mp hmem
  rw [List.mem_range] at hj
  rw [h.head, h.tail] at hlt
  rw [h.head] at heq
  exact mod_ne_of_lt (by omega) (by omega) heq

/-- The bounded queue: nothing, one more item at the end while there is room, or the first item
less. -/
inductive QueueStep (bound : ℕ) : List T → List T → Prop
  | stay (q : List T) : QueueStep bound q q
  | enqueue {q : List T} (x : T) (hroom : q.length < bound) : QueueStep bound q (q ++ [x])
  | dequeue (x : T) (q : List T) : QueueStep bound (x :: q) q

/-- **Every step of the ring is a step of the queue.** -/
theorem queueStep_of_takes [Inhabited T] (hcap : ∃ k, cap.toNat = 2 ^ k) {w' : Sides T}
    {ans : Answer T} (h : Inv cap w) (hs : Takes cap w ans w')
    (hlt : w'.published.length < 2 ^ 64) :
    QueueStep cap.toNat (w.ring.unread cap) (w'.ring.unread cap) := by
  have h' := h.step hcap hs hlt
  have hproducer := h.producer
  have hconsumer := h.consumer
  rw [h'.unread_eq hcap, h.unread_eq hcap]
  cases hs with
  | publish hp =>
    rw [hp] at hproducer
    obtain ⟨-, hfree⟩ := hproducer
    have hle : w.received.length ≤ w.published.length := by
      have := h.tail_le.trans h.headCache
      rwa [h.head, h.tail] at this
    rw [List.drop_append_of_le_length hle]
    refine .enqueue _ ?_
    have hroom : w.ring.head.toNat < w.ring.tail.toNat + cap.toNat :=
      lt_of_lt_of_le hfree (Nat.add_le_add_right h.tailCache _)
    rw [h.head, h.tail] at hroom
    rw [List.length_drop]
    omega
  | @pop i x hc =>
    rw [hc] at hconsumer
    obtain ⟨-, -, hx⟩ := hconsumer
    rw [h.tail] at hx
    obtain ⟨hlt', hget⟩ := List.getElem?_eq_some_iff.mp hx
    have hdrop : w.published.drop w.received.length =
        x :: w.published.drop (w.received.length + 1) := by
      rw [List.drop_eq_getElem_cons hlt', hget]
    rw [hdrop, List.length_append, List.length_singleton]
    exact .dequeue x _
  | _ => exact .stay _

/-- What an answer says of the ring at the step that gives it. -/
def Answer.Truthful [Inhabited T] (cap : UInt64) (r : SpscRing T) : Answer T → Prop
  | .claimed (some i) => i < cap.toNat ∧ i ∉ r.unreadPlaces cap
  | .claimed none => (r.unread cap).length = cap.toNat
  | .peeked (some i) => (r.unreadPlaces cap).head? = some i
  | .peeked none => r.unread cap = []
  | .item x => (r.unread cap).head? = some x
  | .count n => n.toNat = (r.unread cap).length
  | .loads | .done => True

/-- Every place is inside of the ring. -/
theorem place_lt (hcap : ∃ k, cap.toNat = 2 ^ k) (c : UInt64) : place cap c < cap.toNat := by
  rw [place_eq hcap]
  obtain ⟨k, hk⟩ := hcap
  exact Nat.mod_lt _ (hk ▸ Nat.two_pow_pos k)

/-- The oldest element is where the consumer looks. -/
theorem Inv.head?_unreadPlaces (h : Inv cap w) (hcap : ∃ k, cap.toNat = 2 ^ k)
    (hlt : w.ring.tail.toNat < w.ring.head.toNat) :
    (w.ring.unreadPlaces cap).head? = some (place cap w.ring.tail) := by
  rw [h.head, h.tail] at hlt
  obtain ⟨d, hd⟩ := Nat.exists_eq_add_of_lt hlt
  rw [h.unreadPlaces_eq hcap, place_eq hcap, h.tail, hd,
    show w.received.length + d + 1 - w.received.length = d + 1 by omega, List.range_succ_eq_map]
  rfl

/-- **No answer is out of date.** -/
theorem Inv.truthful [Inhabited T] {w' : Sides T} {ans : Answer T} (h : Inv cap w)
    (hcap : ∃ k, cap.toNat = 2 ^ k) (hs : Takes cap w ans w') : ans.Truthful cap w.ring := by
  have hproducer := h.producer
  have hconsumer := h.consumer
  have htail := h.tail_le.trans h.headCache
  cases hs with
  -- with an old copy of the tail there is at least the room that it shows
  | claim hroom =>
    rw [looksFull_iff (h.tailCache.trans htail)] at hroom
    refine ⟨place_lt hcap _, h.notMem_unreadPlaces hcap ?_⟩
    exact lt_of_lt_of_le (Nat.lt_of_not_le hroom) (Nat.add_le_add_right h.tailCache _)
  -- the producer just reloaded the tail, so a full answer is true at this step
  | claimNull hp hfull =>
    rw [hp] at hproducer
    obtain rfl := hproducer
    rw [looksFull_iff htail] at hfull
    dsimp only at hfull
    have hbound := h.bound.trans (Nat.add_le_add_right h.tailCache _)
    rw [Answer.Truthful, h.length_unread hcap]
    omega
  | claimLoaded hp hroom =>
    rw [hp] at hproducer
    obtain rfl := hproducer
    rw [looksFull_iff htail] at hroom
    exact ⟨place_lt hcap _, h.notMem_unreadPlaces hcap (Nat.lt_of_not_le hroom)⟩
  | peek hitem =>
    rw [looksEmpty_iff] at hitem
    exact h.head?_unreadPlaces hcap (lt_of_lt_of_le (Nat.lt_of_not_le hitem) h.headCache)
  -- and the consumer the head: nothing is unread at this step
  | peekNull hc hempty =>
    rw [hc] at hconsumer
    obtain rfl := hconsumer
    rw [looksEmpty_iff] at hempty
    refine List.length_eq_zero_iff.mp ?_
    rw [h.length_unread hcap]
    exact Nat.sub_eq_zero_of_le hempty
  | peekLoaded hc hitem =>
    rw [hc] at hconsumer
    obtain rfl := hconsumer
    rw [looksEmpty_iff] at hitem
    exact h.head?_unreadPlaces hcap (Nat.lt_of_not_le hitem)
  | @read i hc =>
    obtain ⟨rfl, hcache⟩ := hconsumer.oldest hc
    rw [Answer.Truthful, unread, List.head?_map,
      h.head?_unreadPlaces hcap (lt_of_lt_of_le hcache h.headCache)]
    rfl
  | available hc =>
    rw [Answer.Truthful, h.length_unread hcap]
    exact UInt64.toNat_sub_of_le _ _ (UInt64.le_iff_toNat_le.mpr htail)
  | _ => trivial

/-- **The ring is a bounded queue, whatever the interleaving.** While the cursors do not wrap, the
items received are the first of those published, once each and in order, and the rest are unread in
the slots, at most as many as there are; the producer never has the slot of an unread item; and an
answer is true of the ring at the step that gives it: null of a claim only when it is full, null of
a peek only when it is empty, the item read the oldest unread one. To the unread items every step is
a step of a bounded queue. -/
theorem bounded_fifo [Inhabited T] (hcap : ∃ k, cap.toNat = 2 ^ k) (hw : Reachable cap w)
    (hlt : w.published.length < 2 ^ 64) :
    w.published = w.received ++ w.ring.unread cap ∧ (w.ring.unread cap).length ≤ cap.toNat ∧
      (∀ i, w.producer = .claimed i → i ∉ w.ring.unreadPlaces cap) ∧
      ∀ a ans w', step cap w a = some (ans, w') → ans.Truthful cap w.ring ∧
        (w'.published.length < 2 ^ 64 →
          QueueStep cap.toNat (w.ring.unread cap) (w'.ring.unread cap)) := by
  have h := hw.inv hcap hlt
  have hbound := h.bound.trans (Nat.add_le_add_right h.tailCache _)
  refine ⟨?_, ?_, fun i hi => ?_, fun a ans w' hs => ⟨h.truthful hcap (takes_of_step hs),
    queueStep_of_takes hcap h (takes_of_step hs)⟩⟩
  · rw [h.unread_eq hcap]
    conv_lhs => rw [← List.take_append_drop w.received.length w.published, ← h.received]
  · rw [h.length_unread hcap]
    omega
  · have hfits := h.producer
    rw [hi] at hfits
    obtain ⟨rfl, hfree⟩ := hfits
    exact h.notMem_unreadPlaces hcap
      (lt_of_lt_of_le hfree (Nat.add_le_add_right h.tailCache _))

/-- Two slots: an item is received between the two halves of the third `claim`. -/
theorem bounded_fifo_two :
    let w : Sides ℕ :=
      ⟨⟨2, 1, 0, 2, [7, 8]⟩, .loading 2, .idle, [7, 8], [7]⟩
    w.published = w.received ++ w.ring.unread 2 ∧ (w.ring.unread 2).length ≤ 2 := by
  intro w
  have hw : Reachable 2 w := by
    refine .step (a := .pop) (.step (a := .read) (.step (a := .claim) (.step (a := .loadHead)
      (.step (a := .peek) (.step (a := .publish) (.step (a := .write 8) (.step (a := .claim)
      (.step (a := .publish) (.step (a := .write 7) (.step (a := .claim) .start rfl) rfl) rfl)
      rfl) rfl) rfl) rfl) rfl) rfl) rfl) rfl
  have h := bounded_fifo ⟨1, rfl⟩ hw (by decide)
  exact ⟨h.1, h.2.1⟩

end Queue

end SpscRing

end MotorRv
