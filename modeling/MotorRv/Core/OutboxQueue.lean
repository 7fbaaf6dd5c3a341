import MotorRv.Core.Outbox
import MotorRv.Lib.Spans

/-!
# The outbox is a queue

Over any sequence of calls the pending entries are the staged ones less the committed ones, and
each still finds its bytes. The offsets tell a full buffer from an empty one only by what is
pending, and the code does not look: bytes staged into a full buffer that has started again at zero
go over the oldest pending payload. A length is kept in 16 bits, and offsets are added in 32.

`Queue` is the invariant: the ring from its head on holds the staged entries that are not committed,
their spans are laid out in the buffer as the library on spans has it, and each span holds the bytes
that were given. A payload is `Sane` for a state when its length and its end are within what the
code computes with and the buffer is not full in the sense of `Full`; a sane payload is refused or
goes behind the others, and no other entry is touched (`Queue.stage`).

`queue_of_allSane` is the run from `init` on. Reservations are the other result: once `hasRoom` has
said so, the payloads of one event are staged in whatever pieces they come (`Budget.stageAll`). The
counterexample fills a buffer of four bytes to the last and loses a payload that was never released.
-/

namespace MotorRv

open Lib

/-- What a call to `stage` was given. -/
structure Staged where
  lsn : ℕ
  kind : OutKind
  payload : Bytes

namespace Outbox

/-- The entry is the one that was staged, and its span returns the bytes. -/
structure Shows (o : Outbox) (e : OutboxEntry) (x : Staged) : Prop where
  lsn_eq : e.lsn = x.lsn
  kind_eq : e.kind = x.kind
  len_eq : e.len = x.payload.length
  payload_eq : o.payload e = x.payload

/-- The calls of the producer and the publisher. -/
inductive Call
  | stage (x : Staged)
  | ready (durable : ℕ)
  | commit (n : ℕ)

/-- Serve calls, with the staged entries that are not committed yet. -/
def serve : Outbox → List Staged → List Call → Exec (Outbox × List Staged)
  | o, q, [] => .ok (o, q)
  | o, q, .stage x :: cs => do
    let (st, o') ← o.stage x.lsn x.kind x.payload
    serve o' (if st = .kOk then q ++ [x] else q) cs
  | o, q, .ready _ :: cs => serve o q cs
  | o, q, .commit n :: cs => serve (o.commit n) (q.drop n) cs

/-- The free bytes are taken for none: the oldest payload lies where the next one would go, and
something is pending between the two. -/
def Full (o : Outbox) : Prop := o.bufHead = o.live ∧ ∃ e ∈ o.pendingEntries, e.len ≠ 0

/-- Where a payload of `len` bytes goes when no sum wraps. -/
def room? (o : Outbox) (len : ℕ) : Option ℕ :=
  if o.count = 0 then some 0 else Lib.place o.buf.length o.live o.bufHead len

/-- A payload that is refused before it is placed, or whose length and end are within what the code
computes with, and which is not placed over a full buffer. -/
def Sane (o : Outbox) (payload : Bytes) : Prop :=
  o.count < o.slots.length → payload.length % 2 ^ 32 ≤ o.buf.length →
    payload.length < 2 ^ 32 ∧ (o.count ≠ 0 → o.bufHead + payload.length < 2 ^ 32) ∧
      ((o.room? payload.length).isSome → payload.length < 2 ^ 16 ∧ (o.Full → payload = []))

instance (o : Outbox) : Decidable o.Full := inferInstanceAs (Decidable (_ ∧ _))

instance (o : Outbox) (payload : Bytes) : Decidable (o.Sane payload) :=
  inferInstanceAs (Decidable (_ → _))

/-- Every `stage` of the calls is made with a sane payload. -/
def AllSane : Outbox → List Call → Prop
  | _, [] => True
  | o, .stage x :: cs => o.Sane x.payload ∧
      match o.stage x.lsn x.kind x.payload with
      | .ok (_, o') => AllSane o' cs
      | .error _ => True
  | o, .ready _ :: cs => AllSane o cs
  | o, .commit n :: cs => AllSane (o.commit n) cs

instance : ∀ (cs : List Call) (o : Outbox), Decidable (o.AllSane cs)
  | [], _ => inferInstanceAs (Decidable True)
  | .stage x :: cs, o => by
    unfold AllSane
    cases o.stage x.lsn x.kind x.payload with
    | ok r => exact @instDecidableAnd _ _ _ (instDecidableAllSane cs r.2)
    | error d => exact inferInstanceAs (Decidable (_ ∧ True))
  | .ready _ :: cs, o => instDecidableAllSane cs o
  | .commit n :: cs, o => instDecidableAllSane cs (o.commit n)

/-- `stage` for one payload after another. -/
def stageAll : Outbox → List Staged → Exec (List Status × Outbox)
  | o, [] => .ok ([], o)
  | o, x :: xs => do
    let (st, o') ← o.stage x.lsn x.kind x.payload
    let (sts, o'') ← stageAll o' xs
    pure (st :: sts, o'')

/-! ### One call -/

/-- The span an entry occupies. -/
def span (e : OutboxEntry) : ℕ × ℕ := (e.offset, e.len)

/-- The ring and the buffer agree with the staged entries. -/
structure Queue (o : Outbox) (q : List Staged) : Prop where
  head_lt : o.head < o.slots.length
  count_le : o.count ≤ o.slots.length
  cap_lt : o.buf.length < 2 ^ 32
  laid : Laid o.buf.length (o.pendingEntries.map span) o.bufHead
  shows : List.Forall₂ o.Shows o.pendingEntries q

variable {o o' : Outbox} {q : List Staged}

/-- An empty outbox has no entries. -/
theorem pendingEntries_of_count_zero (h : o.count = 0) : o.pendingEntries = [] := by
  rw [pendingEntries, h, List.take_zero]

/-- The oldest pending entry is the one whose offset the code reads. -/
theorem head?_pendingEntries (hlt : o.head < o.slots.length) (hne : o.count ≠ 0) :
    (o.pendingEntries.map span).head?.map Prod.fst = some o.live := by
  have hview : (o.slots.rotate o.head).head? = o.slots[o.head]? := List.head?_rotate hlt
  rw [List.head?_map, Option.map_map, pendingEntries, List.head?_take, if_neg hne, hview, live,
    List.getElem?_eq_getElem hlt, Option.map_some, List.getD_eq_getElem _ _ hlt]
  rfl

/-- The outbox after a payload has been placed. -/
def staged (o : Outbox) (x : Staged) (at_ : ℕ) : Outbox :=
  { o with
    buf := writeAt o.buf at_ x.payload
    slots := o.slots.set ((o.head + o.count) % o.slots.length)
      ⟨x.lsn, at_, x.payload.length % 2 ^ 16, x.kind⟩
    bufHead := at_ + x.payload.length
    count := o.count + 1
    stagedTotal := o.stagedTotal + 1 }

/-- Where the end of the live bytes does not wrap around, a payload is placed where there is room
for it. -/
theorem place_eq {len : ℕ} (hwrap : o.count ≠ 0 → o.bufHead + len < 2 ^ 32) : o.place len =
    match o.room? len with
    | none => .error (.fail .arenaExhausted (UInt32.ofNat len))
    | some at_ => .ok at_ := by
  unfold place room? Lib.place
  by_cases hzero : o.count = 0
  · rw [if_pos hzero, if_pos hzero]
  · rw [if_neg hzero, if_neg hzero, add32, Nat.mod_eq_of_lt (hwrap hzero)]
    split_ifs <;> rfl

section Stage

variable {x : Staged} (hcount : o.count < o.slots.length) (hcap : o.buf.length < 2 ^ 32)
  (hlen : x.payload.length ≤ o.buf.length)
  (hwrap : o.count ≠ 0 → o.bufHead + x.payload.length < 2 ^ 32)
include hcount hcap hlen hwrap

/-- Without room nothing is staged. -/
theorem stage_of_no_room (h : o.room? x.payload.length = none) :
    o.stage x.lsn x.kind x.payload =
      .ok (.fail .arenaExhausted (UInt32.ofNat x.payload.length), o) := by
  have hmod : x.payload.length % 2 ^ 32 = x.payload.length := Nat.mod_eq_of_lt (by omega)
  unfold stage
  simp only [hmod]
  rw [if_neg (by omega), if_neg (by omega), place_eq hwrap, h]

/-- With room the payload is staged there. -/
theorem stage_of_room {at_ : ℕ} (h : o.room? x.payload.length = some at_)
    (hend : at_ + x.payload.length ≤ o.buf.length) :
    o.stage x.lsn x.kind x.payload = .ok (.kOk, o.staged x at_) := by
  have hmod : x.payload.length % 2 ^ 32 = x.payload.length := Nat.mod_eq_of_lt (by omega)
  have hsum : add32 at_ x.payload.length = at_ + x.payload.length := Nat.mod_eq_of_lt (by omega)
  unfold stage
  simp only [hmod, List.take_length]
  rw [if_neg (by omega), if_neg (by omega), place_eq hwrap, h]
  dsimp only
  rw [if_neg (by omega), hsum]
  rfl

end Stage

/-- What is refused leaves the outbox as it was. -/
theorem stage_of_refused {x : Staged}
    (h : ¬ (o.count < o.slots.length ∧ x.payload.length % 2 ^ 32 ≤ o.buf.length)) :
    ∃ st, o.stage x.lsn x.kind x.payload = .ok (st, o) ∧ st ≠ .kOk := by
  unfold stage
  dsimp only
  by_cases hcount : o.slots.length ≤ o.count
  · exact ⟨_, if_pos hcount, nofun⟩
  · rw [if_neg hcount, if_pos (by omega)]
    exact ⟨_, rfl, nofun⟩

/-- A call that fails changes nothing. -/
theorem stage_fails {x : Staged} {st : Status} (h : o.stage x.lsn x.kind x.payload = .ok (st, o'))
    (hst : st ≠ .kOk) : o' = o := by
  unfold stage at h
  dsimp only at h
  split_ifs at h
  · exact (congrArg Prod.snd (Except.ok.inj h)).symm
  · exact (congrArg Prod.snd (Except.ok.inj h)).symm
  · split at h
    · exact (congrArg Prod.snd (Except.ok.inj h)).symm
    · split_ifs at h
      exact absurd (congrArg Prod.fst (Except.ok.inj h)).symm hst

/-- An entry written behind the pending ones is the last of them. -/
theorem pendingEntries_push (hcount : o.count < o.slots.length) (x : OutboxEntry) :
    ((o.slots.set ((o.head + o.count) % o.slots.length) x).rotate o.head).take (o.count + 1) =
      o.pendingEntries ++ [x] := by
  have hlen : o.count < (o.slots.rotate o.head).length := by rwa [List.length_rotate]
  rw [set_rotate o.head hcount, List.take_add_one, List.take_set_of_le le_rfl,
    List.getElem?_set_self (by rwa [List.length_rotate])]
  rfl

/-- What is staged is the newest entry. -/
theorem pendingEntries_staged {x : Staged} {at_ : ℕ} (hcount : o.count < o.slots.length) :
    (o.staged x at_).pendingEntries =
      o.pendingEntries ++ [⟨x.lsn, at_, x.payload.length % 2 ^ 16, x.kind⟩] :=
  pendingEntries_push hcount _

/-- What is written clear of a span leaves its bytes. -/
theorem Shows.staged {e : OutboxEntry} {x y : Staged} {at_ : ℕ} (h : o.Shows e y)
    (hapart : e.offset + e.len ≤ at_ ∨ at_ + x.payload.length ≤ e.offset) :
    (o.staged x at_).Shows e y := by
  have hbytes : HoldsAt o.buf e.offset y.payload := by
    rw [← h.payload_eq]
    exact holdsAt_slice _ _ _
  refine ⟨h.lsn_eq, h.kind_eq, h.len_eq, ?_⟩
  rw [payload, h.len_eq]
  exact (hbytes.writeAt_of_disjoint (by rwa [← h.len_eq])).slice_eq

/-- A payload that has its place goes behind the others, which keep their bytes. -/
theorem Queue.staged {x : Staged} {at_ : ℕ} (h : o.Queue q) (hcount : o.count < o.slots.length)
    (hsmall : x.payload.length < 2 ^ 16) (hcap : at_ + x.payload.length ≤ o.buf.length)
    (hlaid : Laid o.buf.length (o.pendingEntries.map span ++ [(at_, x.payload.length)])
      (at_ + x.payload.length))
    (hclear : ∀ s ∈ o.pendingEntries.map span, s.1 + s.2 ≤ at_ ∨ at_ + x.payload.length ≤ s.1) :
    (o.staged x at_).Queue (q ++ [x]) := by
  have hbuf : (writeAt o.buf at_ x.payload).length = o.buf.length := length_writeAt_of_le hcap
  have hmod : x.payload.length % 2 ^ 16 = x.payload.length := Nat.mod_eq_of_lt hsmall
  have hpending := @pendingEntries_staged _ x at_ hcount
  rw [hmod] at hpending
  refine ⟨?_, ?_, ?_, ?_, ?_⟩
  · exact h.head_lt.trans_eq List.length_set.symm
  · exact Nat.succ_le_of_lt (hcount.trans_eq List.length_set.symm)
  · exact hbuf.trans_lt h.cap_lt
  · rw [hpending, List.map_append]
    exact hbuf.symm ▸ hlaid
  · rw [hpending]
    refine List.rel_append ?_ (.cons ⟨rfl, rfl, rfl, ?_⟩ .nil)
    · have hboth := (List.forall₂_and_left _ _).mpr
        ⟨fun e he => hclear (span e) (List.mem_map_of_mem he), h.shows⟩
      exact hboth.imp fun e y ⟨hapart, hy⟩ => hy.staged hapart
    · exact (holdsAt_writeAt _ _ _).slice_eq

/-- A sane payload is refused, or goes behind the others. -/
theorem Queue.stage {x : Staged} (h : o.Queue q) (hsane : o.Sane x.payload) :
    ∃ st o', o.stage x.lsn x.kind x.payload = .ok (st, o') ∧
      o'.Queue (if st = .kOk then q ++ [x] else q) := by
  by_cases hpre : o.count < o.slots.length ∧ x.payload.length % 2 ^ 32 ≤ o.buf.length
  · obtain ⟨hlen32, hwrap, hroom⟩ := hsane hpre.1 hpre.2
    have hlen : x.payload.length ≤ o.buf.length := by
      rw [← Nat.mod_eq_of_lt hlen32]
      exact hpre.2
    cases hat : o.room? x.payload.length with
    | none => exact ⟨_, o, stage_of_no_room hpre.1 h.cap_lt hlen hwrap hat, h⟩
    | some at_ =>
      obtain ⟨hsmall, hfull⟩ := hroom (by rw [hat]; rfl)
      have hplace : Laid o.buf.length (o.pendingEntries.map span ++ [(at_, x.payload.length)])
          (at_ + x.payload.length) ∧ at_ + x.payload.length ≤ o.buf.length ∧
          ∀ s ∈ o.pendingEntries.map span, s.1 + s.2 ≤ at_ ∨ at_ + x.payload.length ≤ s.1 := by
        unfold room? at hat
        split_ifs at hat with hzero
        · obtain rfl := Option.some.inj hat
          rw [pendingEntries_of_count_zero hzero, Nat.zero_add]
          exact ⟨.singleton hlen, hlen, nofun⟩
        · refine h.laid.snoc (head?_pendingEntries h.head_lt hzero) hat fun hnext hsome => ?_
          obtain ⟨s, hs, hne⟩ := hsome
          obtain ⟨e, he, rfl⟩ := List.mem_map.mp hs
          rw [hfull ⟨hnext, e, he, hne⟩, List.length_nil]
      obtain ⟨hlaid, hend, hclear⟩ := hplace
      refine ⟨.kOk, o.staged x at_, stage_of_room hpre.1 h.cap_lt hlen hwrap hat hend, ?_⟩
      exact h.staged hpre.1 hsmall hend hlaid hclear
  · obtain ⟨st, hst, hne⟩ := stage_of_refused hpre
    rw [ne_eq] at hne
    exact ⟨st, o, hst, by rwa [if_neg hne]⟩

/-- What is released are the oldest entries. -/
theorem pendingEntries_commit (hcount : o.count ≤ o.slots.length) (n : ℕ) :
    (o.commit n).pendingEntries = o.pendingEntries.drop n := by
  have hrot : (o.slots.rotate o.head).rotate (min n o.count) =
      (o.slots.rotate o.head).drop (min n o.count) ++ (o.slots.rotate o.head).take
        (min n o.count) :=
    List.rotate_eq_drop_append_take (by rw [List.length_rotate]; omega)
  have hlen : o.count - min n o.count ≤ ((o.slots.rotate o.head).drop (min n o.count)).length := by
    rw [List.length_drop, List.length_rotate]
    omega
  unfold pendingEntries commit
  dsimp only
  rw [List.rotate_mod, ← List.rotate_rotate, hrot, List.take_append_of_le_length hlen,
    ← List.drop_take]
  obtain hle | hgt := Nat.le_total n o.count
  · rw [Nat.min_eq_left hle]
  · rw [Nat.min_eq_right hgt, List.drop_eq_nil_of_le, List.drop_eq_nil_of_le] <;>
      · rw [List.length_take]
        omega

/-- Committing releases from the front. -/
theorem Queue.commit (h : o.Queue q) (n : ℕ) : (o.commit n).Queue (q.drop n) := by
  have hpending := pendingEntries_commit h.count_le n
  refine ⟨?_, ?_, h.cap_lt, ?_, ?_⟩
  · exact Nat.mod_lt _ (Nat.zero_lt_of_lt h.head_lt)
  · exact (Nat.sub_le _ _).trans h.count_le
  · rw [hpending, List.map_drop]
    exact h.laid.drop n
  · rw [hpending]
    exact (List.forall₂_drop n h.shows).imp fun e y hy =>
      ⟨hy.lsn_eq, hy.kind_eq, hy.len_eq, hy.payload_eq⟩

/-! ### Reservations -/

/-- Room for `n` more entries of `b` bytes in all. -/
structure Budget (o : Outbox) (n b : ℕ) : Prop where
  head_lt : o.head < o.slots.length
  cap_lt : o.buf.length < 2 ^ 32
  entries_le : o.count + n ≤ o.slots.length
  bytes_le : b ≤ o.buf.length
  live_le : o.count ≠ 0 → o.live ≤ o.buf.length
  reserved : o.count ≠ 0 → Reserved o.buf.length o.live o.bufHead b
  wrap : o.count ≠ 0 → o.bufHead + b < 2 ^ 32

/-- The live bytes begin where they did, unless there were none. -/
theorem live_staged {x : Staged} {at_ : ℕ} (hhead : o.head < o.slots.length)
    (hcount : o.count < o.slots.length) :
    (o.staged x at_).live = if o.count = 0 then at_ else o.live := by
  unfold live staged
  dsimp only
  split_ifs with hzero
  · have hslot : (o.head + o.count) % o.slots.length = o.head := by
      rw [hzero, Nat.add_zero, Nat.mod_eq_of_lt hhead]
    rw [hslot, List.getD_eq_getElem _ _ (hhead.trans_eq List.length_set.symm),
      List.getElem_set_self]
  · have hslot : (o.head + o.count) % o.slots.length ≠ o.head := by
      obtain hlt | hge := Nat.lt_or_ge (o.head + o.count) o.slots.length
      · rw [Nat.mod_eq_of_lt hlt]
        omega
      · rw [Nat.mod_eq_sub_mod hge, Nat.mod_eq_of_lt (by omega)]
        omega
    rw [List.getD_eq_getElem?_getD, List.getElem?_set_ne hslot, ← List.getD_eq_getElem?_getD]

/-- A payload within the budget is staged, and leaves the rest of the budget. -/
theorem Budget.stage {n b : ℕ} {x : Staged} (h : o.Budget (n + 1) b) (hx : x.payload.length ≤ b) :
    ∃ o', o.stage x.lsn x.kind x.payload = .ok (.kOk, o') ∧ o'.Budget n (b - x.payload.length) := by
  have hcap := h.cap_lt
  have hentries := h.entries_le
  have hbytes := h.bytes_le
  -- an empty buffer starts again at its front; another has room behind its entries
  have hroom : ∃ at_, o.room? x.payload.length = some at_ ∧ at_ + x.payload.length ≤ o.buf.length ∧
      at_ + b < 2 ^ 32 ∧
      Reserved o.buf.length (if o.count = 0 then at_ else o.live) (at_ + x.payload.length)
        (b - x.payload.length) := by
    unfold room?
    split_ifs with hzero
    · refine ⟨0, rfl, by omega, by omega, ?_⟩
      unfold Reserved
      omega
    · obtain ⟨at_, hat, hle, hend, hrest⟩ := (h.reserved hzero).place hx (h.live_le hzero)
      have := h.wrap hzero
      exact ⟨at_, hat, hend, by omega, hrest⟩
  obtain ⟨at_, hat, hend, hsum, hrest⟩ := hroom
  -- the oldest live byte moves only where the buffer was empty
  have hlive := @live_staged _ x at_ h.head_lt (by omega)
  have hbuf : (writeAt o.buf at_ x.payload).length = o.buf.length := length_writeAt_of_le hend
  have hslots : (o.staged x at_).slots.length = o.slots.length := List.length_set
  have hwrap : o.count ≠ 0 → o.bufHead + x.payload.length < 2 ^ 32 := fun hne =>
    (Nat.add_le_add_left hx _).trans_lt (h.wrap hne)
  refine ⟨o.staged x at_, stage_of_room (by omega) h.cap_lt (by omega) hwrap hat hend, ?_⟩
  refine ⟨?_, ?_, ?_, ?_, fun _ => ?_, fun _ => ?_, fun _ => ?_⟩
  · exact h.head_lt.trans_eq hslots.symm
  · exact hbuf.trans_lt h.cap_lt
  · rw [hslots]
    exact (by omega : o.count + 1 + n ≤ o.slots.length)
  · exact (by omega : b - x.payload.length ≤ (writeAt o.buf at_ x.payload).length)
  · rw [hlive]
    refine le_of_le_of_eq ?_ hbuf.symm
    split_ifs with hzero
    · omega
    · exact h.live_le hzero
  · rw [hlive]
    exact hbuf.symm ▸ hrest
  · exact (by omega : at_ + x.payload.length + (b - x.payload.length) < 2 ^ 32)

/-- Within its budget an outbox stages everything. -/
theorem Budget.stageAll {xs : List Staged} : ∀ {o : Outbox} {n b : ℕ}, o.Budget n b →
    xs.length ≤ n → (xs.map (·.payload.length)).sum ≤ b →
    ∃ o', o.stageAll xs = .ok (List.replicate xs.length .kOk, o') := by
  induction xs with
  | nil => exact fun {o n b} _ _ _ => ⟨o, rfl⟩
  | cons x xs ih =>
    intro o n b h hlen hsum
    rw [List.map_cons, List.sum_cons] at hsum
    obtain ⟨n, rfl⟩ := Nat.exists_eq_succ_of_ne_zero (n := n) (by
      rintro rfl
      exact absurd hlen (by simp))
    obtain ⟨o', hst, h'⟩ := h.stage (x := x) (by omega)
    obtain ⟨o'', hrun⟩ := ih h' (Nat.le_of_succ_le_succ hlen) (by omega)
    refine ⟨o'', ?_⟩
    rw [Outbox.stageAll, hst]
    change (o'.stageAll xs >>= fun r => pure (.kOk :: r.1, r.2)) = _
    rw [hrun]
    rfl

/-- The live bytes are in the buffer. -/
theorem Queue.live_le (h : o.Queue q) (hne : o.count ≠ 0) : o.live ≤ o.buf.length := by
  have hhead := head?_pendingEntries h.head_lt hne
  cases hspans : o.pendingEntries.map span with
  | nil =>
    rw [hspans] at hhead
    cases hhead
  | cons s rest =>
    rw [hspans] at hhead
    have hbound := h.laid.bounds s (by rw [hspans]; exact List.mem_cons_self)
    have hlive : s.1 = o.live := Option.some.inj hhead
    omega

/-- What `hasRoom` has seen is a budget, unless one of its sums wraps. -/
theorem Queue.budget (h : o.Queue q) {n b : ℕ} (hroom : o.hasRoom n b)
    (hentries : o.count + n < 2 ^ 32) (hbytes : o.count ≠ 0 → o.bufHead + b < 2 ^ 32) :
    o.Budget n b := by
  have hnext := h.laid.next_le
  unfold hasRoom add32 at hroom
  rw [Nat.mod_eq_of_lt hentries] at hroom
  dsimp only at hroom
  generalize hfree : (if o.live ≤ o.bufHead then
    if o.live < o.buf.length - o.bufHead then o.buf.length - o.bufHead else o.live
    else o.live - o.bufHead) = free at hroom
  split_ifs at hroom with hslots hlen hzero
  · exact ⟨h.head_lt, h.cap_lt, by omega, by omega, fun hne => absurd hzero hne,
      fun hne => absurd hzero hne, hbytes⟩
  · have hle := of_decide_eq_true hroom
    refine ⟨h.head_lt, h.cap_lt, by omega, by omega, fun _ => h.live_le hzero, fun _ => ?_, hbytes⟩
    unfold Reserved
    split_ifs at hfree <;> omega

/-! ### Runs -/

/-- By induction on the calls: the outbox shows the queue after each of them. -/
theorem Queue.serve {cs : List Call} : ∀ {o : Outbox} {q : List Staged}, o.Queue q → o.AllSane cs →
    ∃ o' q', o.serve q cs = .ok (o', q') ∧ o'.Queue q' := by
  induction cs with
  | nil => exact fun {o q} h _ => ⟨o, q, rfl, h⟩
  | cons c cs ih =>
    intro o q h hsane
    cases c with
    | stage x =>
      obtain ⟨st, o', hst, h'⟩ := h.stage hsane.1
      have hrest := hsane.2
      rw [hst] at hrest
      obtain ⟨o'', q'', hrun, h''⟩ := ih h' hrest
      refine ⟨o'', q'', ?_, h''⟩
      rw [Outbox.serve, hst]
      exact hrun
    | ready durable => exact ih h hsane
    | commit n => exact ih (h.commit n) hsane

/-! ### From `init` on -/

/-- A ring has a slot. -/
theorem ringSlots_pos {slots n : ℕ} (h : ringSlots slots = some n) : 0 < n := by
  obtain ⟨k, -, rfl⟩ := List.mem_map.mp (List.mem_of_find?_eq_some h)
  positivity

/-- With room in the arena an outbox is made. -/
theorem init_of_room {a : Arena} {slots payloadBytes : UInt32} {n : ℕ}
    (hn : ringSlots slots.toNat = some n)
    (hroom : (a.allocAll [(16 * n, 8), (payloadBytes.toNat, 1)]).1 = true) :
    init a slots payloadBytes = .ok (some (fresh n payloadBytes.toNat),
      (a.allocAll [(16 * n, 8), (payloadBytes.toNat, 1)]).2) := by
  rcases halloc : a.allocAll [(16 * n, 8), (payloadBytes.toNat, 1)] with ⟨granted, a'⟩
  obtain rfl : granted = true := by rwa [halloc] at hroom
  simp only [init, hn, halloc]

/-- An outbox just made shows the empty queue. -/
theorem queue_init {a a' : Arena} {slots payloadBytes : UInt32} {o₀ : Outbox}
    (h : init a slots payloadBytes = .ok (some o₀, a')) : o₀.Queue [] := by
  unfold init at h
  split at h
  · cases h
  · rename_i n hn
    split at h
    · cases Except.ok.inj h
      refine ⟨?_, Nat.zero_le _, ?_, .straight rfl (Nat.zero_le _), .nil⟩
      · exact (ringSlots_pos hn).trans_eq List.length_replicate.symm
      · exact List.length_replicate.trans_lt payloadBytes.toNat_lt
    · cases Except.ok.inj h

/-- From `init` on, and as long as payloads are sane, the outbox is a queue of what was staged; a
call that fails changes nothing; and where no sum wraps, the calls `hasRoom` has promised room for
succeed. -/
theorem queue_of_allSane {a a' : Arena} {slots payloadBytes : UInt32} {o₀ : Outbox}
    (hinit : init a slots payloadBytes = .ok (some o₀, a')) (calls : List Call)
    (hsane : o₀.AllSane calls) :
    ∃ o q, o₀.serve [] calls = .ok (o, q) ∧ List.Forall₂ o.Shows o.pendingEntries q ∧
      (∀ (x : Staged) st o', o.stage x.lsn x.kind x.payload = .ok (st, o') → st ≠ .kOk → o' = o) ∧
      ∀ n b : UInt32, o.hasRoom n.toNat b.toNat → o.count + n.toNat < 2 ^ 32 →
        (o.count ≠ 0 → o.bufHead + b.toNat < 2 ^ 32) →
        ∀ xs, xs.length ≤ n.toNat → (xs.map (·.payload.length)).sum ≤ b.toNat →
          ∃ o', o.stageAll xs = .ok (List.replicate xs.length .kOk, o') := by
  obtain ⟨o, q, hrun, hqueue⟩ := (queue_init hinit).serve hsane
  refine ⟨o, q, hrun, hqueue.shows, fun x st o' => stage_fails, ?_⟩
  intro n b hroom hentries hbytes xs
  exact (hqueue.budget hroom hentries hbytes).stageAll

/-- The third payload goes around the end of the buffer, behind a released one. -/
theorem queue_of_allSane_wrapped : ∃ o q,
    (fresh 16 4).serve [] [.stage ⟨1, .audit, [1, 2]⟩, .stage ⟨2, .audit, [3]⟩, .commit 1,
      .stage ⟨3, .audit, [4, 5]⟩] = .ok (o, q) ∧ List.Forall₂ o.Shows o.pendingEntries q := by
  have hinit : init ⟨2 ^ 16, 0, false, false⟩ 2 4 = .ok (some (fresh 16 4), _) := rfl
  obtain ⟨o, q, hrun, hshows, -⟩ := queue_of_allSane hinit
    [.stage ⟨1, .audit, [1, 2]⟩, .stage ⟨2, .audit, [3]⟩, .commit 1, .stage ⟨3, .audit, [4, 5]⟩]
    (by decide)
  exact ⟨o, q, hrun, hshows⟩

/-- Four bytes are full after the third payload, and the fourth goes over the second. -/
theorem not_forall_shows : ¬ ∀ (a a' : Arena) (slots payloadBytes : UInt32) (o₀ : Outbox),
    init a slots payloadBytes = .ok (some o₀, a') → ∀ calls : List Call, ∃ o q,
      o₀.serve [] calls = .ok (o, q) ∧ List.Forall₂ o.Shows o.pendingEntries q := by
  intro h
  obtain ⟨o, q, hrun, hshows⟩ := h ⟨2 ^ 16, 0, false, false⟩ _ 2 4 (fresh 16 4) rfl
    [.stage ⟨1, .audit, [1, 2]⟩, .stage ⟨2, .audit, [3, 4]⟩, .commit 1,
      .stage ⟨3, .audit, [5, 6]⟩, .stage ⟨4, .audit, [7]⟩]
  cases hrun
  cases hshows with
  | cons hsecond _ => exact absurd hsecond.payload_eq (by decide)

end Outbox

end MotorRv
