import MotorRv.Wal.Backends

/-!
# The synchronous backend

`PwriteBackend` writes at once and keeps the completions in a ring until they are harvested, the
oldest first or the newest first. Its files and buffers are registered before; what each `pwrite`
returns is the environment's.

The write itself is not modelled: a call of `pwrite` is a number that the environment chose, and
what stands in the file afterwards is no business of the contract. A completion is stored with what
was asked for and what was returned, and the ring has as many places as there may be writes in
flight, so a completion always finds room.

`Holds` says that the ring read from its head is the list of the completions that wait, and that
these are the bag of the contract. Taking from either end leaves the rest in order, so the order of
completion may be switched at any time.
-/

namespace MotorRv

open Lib

structure RegBuf where
  base : ℕ
  len : ℕ
  deriving DecidableEq

namespace PwriteBackend

/-- The order in which `reap` gives what was written. -/
inductive Order
  | fifo
  | lifo
  deriving DecidableEq

def kMaxFiles : ℕ := 8
def kMaxBuffers : ℕ := 16

end PwriteBackend

/-- `pwrite n` is what the `n`-th write returns: the bytes written, or the error, negated. -/
structure PwriteBackend where
  pwrite : ℕ → ℤ
  writes : ℕ
  ring : List Completion
  head : ℕ
  count : ℕ
  fds : List ℤ
  bufs : List RegBuf
  order : PwriteBackend.Order
  bytesWritten : ℕ

namespace PwriteBackend

/-- A backend as it is constructed. -/
def start (pwrite : ℕ → ℤ) : PwriteBackend :=
  ⟨pwrite, 0, List.replicate kMaxInflight ⟨0, 0, 0⟩, 0, 0, [], [], .fifo, 0⟩

/-- Files are registered one after the other, up to the first that is not open. -/
def registerFiles (be : PwriteBackend) (fds : List ℤ) : Status × PwriteBackend :=
  if kMaxFiles < fds.length then (.fail .invalidArgument (.ofNat fds.length), be)
  else
    let known := fds.takeWhile fun fd => decide (0 ≤ fd)
    if known.length = fds.length then (.kOk, { be with fds := known })
    else (.fail .invalidArgument (.ofNat known.length), { be with fds := known })

/-- Buffers are registered one after the other, up to the first that is null or empty. -/
def registerBuffers (be : PwriteBackend) (bufs : List RegBuf) : Status × PwriteBackend :=
  if kMaxBuffers < bufs.length then (.fail .invalidArgument (.ofNat bufs.length), be)
  else
    let known := bufs.takeWhile fun b => decide (b.base ≠ 0 ∧ b.len ≠ 0)
    if known.length = bufs.length then (.kOk, { be with bufs := known })
    else (.fail .invalidArgument (.ofNat known.length), { be with bufs := known })

/-- The write, and its completion at the end of the ring. -/
def write (be : PwriteBackend) (req : WriteRequest) : PwriteBackend :=
  let n := be.pwrite be.writes
  { be with
    writes := be.writes + 1
    ring := be.ring.set ((be.head + be.count) % kMaxInflight) ⟨req.token, n, req.len⟩
    count := be.count + 1
    bytesWritten := be.bytesWritten + n.toNat }

def submit (be : PwriteBackend) (buf : ℕ) (req : WriteRequest) : Status × PwriteBackend :=
  if kMaxInflight ≤ be.count then (.fail .walFull (.ofNat be.count), be)
  else if be.fds.length ≤ req.fileIdx then (.fail .invalidArgument (.ofNat req.fileIdx), be)
  else
    match be.bufs[req.bufIdx]? with
    | none => (.fail .invalidArgument (.ofNat req.bufIdx), be)
    | some rb =>
      if buf < rb.base ∨ rb.base + rb.len < buf + req.len then
        (.fail .invalidArgument (.ofNat req.bufIdx), be)
      else (.kOk, be.write req)

/-- The next completion, and the ring without it. -/
def take (be : PwriteBackend) : Completion × PwriteBackend :=
  match be.order with
  | .fifo => (be.ring.getD be.head ⟨0, 0, 0⟩,
      { be with head := (be.head + 1) % kMaxInflight, count := be.count - 1 })
  | .lifo => (be.ring.getD ((be.head + be.count - 1) % kMaxInflight) ⟨0, 0, 0⟩,
      { be with count := be.count - 1 })

def reap : PwriteBackend → ℕ → List Completion × PwriteBackend
  | be, 0 => ([], be)
  | be, room + 1 =>
    if be.count = 0 then ([], be)
    else (be.take.1 :: (reap be.take.2 room).1, (reap be.take.2 room).2)

def setCompletionOrder (be : PwriteBackend) (o : Order) : PwriteBackend := { be with order := o }

/-- As the log sees it; its order may be changed at any time. -/
def backend : Backend PwriteBackend Order where
  submit := submit
  reap := reap
  inflight be := be.count
  own := setCompletionOrder

/-! ### The ring -/

/-- The completions that wait, oldest first. -/
def waiting (be : PwriteBackend) : List Completion := (be.ring.rotate be.head).take be.count

/-- The ring holds the completions of the bag. -/
structure Holds (be : PwriteBackend) (m : Multiset InFlight) : Prop where
  cells : be.ring.length = kMaxInflight
  head : be.head < kMaxInflight
  count : be.count ≤ kMaxInflight
  bag : m = (be.waiting.map Completion.key : Multiset InFlight)

variable {be : PwriteBackend} {m : Multiset InFlight}

theorem Holds.length_waiting (h : be.Holds m) : be.waiting.length = be.count := by
  rw [waiting, List.length_take, List.length_rotate, h.cells, min_eq_left h.count]

theorem Holds.card (h : be.Holds m) : m.card = be.count := by
  rw [h.bag, Multiset.coe_card, List.length_map, h.length_waiting]

theorem Holds.waiting_write (h : be.Holds m) (hroom : be.count < kMaxInflight)
    (req : WriteRequest) :
    (be.write req).waiting = be.waiting ++ [⟨req.token, be.pwrite be.writes, req.len⟩] := by
  have hlt : be.count < be.ring.length := h.cells ▸ hroom
  have hset := set_rotate be.head hlt (⟨req.token, be.pwrite be.writes, req.len⟩ : Completion)
  rw [h.cells] at hset
  simp only [waiting, write, hset]
  rw [List.take_add_one, List.take_set_of_le (Nat.le_refl _), List.getElem?_set_self
    (by rwa [List.length_rotate])]
  rfl

theorem Holds.write (h : be.Holds m) (hroom : be.count < kMaxInflight) (req : WriteRequest) :
    (be.write req).Holds (req.key ::ₘ m) where
  cells := (List.length_set ..).trans h.cells
  head := h.head
  count := hroom
  bag := by
    rw [h.waiting_write hroom, List.map_append, ← Multiset.coe_add, ← h.bag, Multiset.add_comm,
      List.map_singleton, Multiset.coe_singleton, Multiset.singleton_add]
    rfl

/-- The ring loses the completion that it gives, at one end or the other. -/
theorem Holds.take_cases (h : be.Holds m) (hcount : be.count ≠ 0) :
    (be.waiting = be.take.1 :: be.take.2.waiting ∨ be.waiting = be.take.2.waiting ++ [be.take.1]) ∧
      be.take.2.ring = be.ring ∧ be.take.2.head < kMaxInflight ∧
      be.take.2.count + 1 = be.count := by
  have hlen : (be.ring.rotate be.head).length = kMaxInflight := by
    rw [List.length_rotate, h.cells]
  have hcap := h.count
  unfold PwriteBackend.take
  split
  · -- the oldest: the head moves past it
    obtain ⟨x, rest, hview⟩ := List.exists_cons_of_length_pos
      (show 0 < (be.ring.rotate be.head).length by omega)
    have hrest : rest.length + 1 = kMaxInflight := by rw [← hlen, hview, List.length_cons]
    have hhead := getElem?_head (h.cells.symm ▸ h.head) hview
    have hnext := rotate_succ hview
    rw [h.cells] at hnext
    refine ⟨.inl ?_, rfl, Nat.mod_lt _ (by decide), by simp only; omega⟩
    have hx : be.ring.getD be.head ⟨0, 0, 0⟩ = x := by
      rw [List.getD_eq_getElem?_getD, hhead, Option.getD_some]
    simp only [waiting, hx, hnext, hview]
    rw [List.take_append_of_le_length (by omega)]
    obtain ⟨n, hn⟩ := Nat.exists_eq_succ_of_ne_zero hcount
    rw [hn, List.take_succ_cons, Nat.succ_sub_one]
  · -- the newest: the count alone changes
    refine ⟨.inr ?_, rfl, h.head, by simp only; omega⟩
    obtain ⟨n, hn⟩ := Nat.exists_eq_succ_of_ne_zero hcount
    have hlt : n < be.ring.length := by rw [h.cells]; omega
    have hlast : (be.ring.rotate be.head)[n]? = be.ring[(be.head + n) % kMaxInflight]? := by
      rw [List.getElem?_rotate hlt, h.cells, Nat.add_comm n]
    have hin : (be.head + n) % kMaxInflight < be.ring.length := by
      rw [h.cells]
      exact Nat.mod_lt _ (by decide)
    simp only [waiting, hn, Nat.succ_eq_add_one, Nat.add_sub_cancel, ← Nat.add_assoc]
    rw [List.take_add_one, hlast, List.getElem?_eq_getElem hin, List.getD_eq_getElem?_getD,
      List.getElem?_eq_getElem hin]
    rfl

theorem Holds.take (h : be.Holds m) (hcount : be.count ≠ 0) :
    ∃ m', m = be.take.1.key ::ₘ m' ∧ be.take.2.Holds m' := by
  obtain ⟨hwait, hring, hhead, hleft⟩ := h.take_cases hcount
  have hcap := h.count
  refine ⟨_, ?_, hring.symm ▸ h.cells, hhead, by omega, rfl⟩
  rw [h.bag]
  obtain hwait | hwait := hwait
  · rw [hwait, List.map_cons, Multiset.cons_coe]
  · rw [hwait, List.map_append, ← Multiset.coe_add, List.map_singleton, Multiset.coe_singleton,
      Multiset.add_comm, Multiset.singleton_add]

theorem Holds.reap : ∀ (room : ℕ) {be : PwriteBackend} {m : Multiset InFlight}, be.Holds m →
    (be.reap room).1.length ≤ room ∧ ∃ m',
      m = ((be.reap room).1.map Completion.key : Multiset InFlight) + m' ∧ (be.reap room).2.Holds m'
  | 0, be, m, h => ⟨Nat.le_refl 0, m, by simp [PwriteBackend.reap], h⟩
  | room + 1, be, m, h => by
    rw [PwriteBackend.reap]
    split_ifs with hcount
    · exact ⟨Nat.zero_le _, m, by simp, h⟩
    · obtain ⟨m₁, hm, hnext⟩ := h.take hcount
      obtain ⟨hlen, m', hm', hend⟩ := hnext.reap room
      refine ⟨Nat.succ_le_succ hlen, m', ?_, hend⟩
      rw [hm, hm', List.map_cons, ← Multiset.cons_coe, Multiset.cons_add]

/-- A write is refused, or made. -/
theorem submit_cases (be : PwriteBackend) (buf : ℕ) (req : WriteRequest) :
    (be.submit buf req).1.isOk = false ∧ (be.submit buf req).2 = be ∨
      be.submit buf req = (.kOk, be.write req) ∧ be.count < kMaxInflight := by
  unfold submit
  split_ifs with hroom hfile
  · exact .inl ⟨rfl, rfl⟩
  · exact .inl ⟨rfl, rfl⟩
  · split
    · exact .inl ⟨rfl, rfl⟩
    · split_ifs
      · exact .inl ⟨rfl, rfl⟩
      · exact .inr ⟨rfl, by omega⟩

/-- The synchronous backend keeps the contract, and refuses what it has no room for. -/
theorem bag : backend.Bag (fun _ => True) Holds where
  submit {be m} buf req h _ := by
    obtain ⟨hst, hbe⟩ | ⟨heq, hroom⟩ := submit_cases be buf req
    · simp only [backend, hst, hbe]
      exact h
    · simp only [backend, heq]
      exact h.write hroom req
  reap n h := h.reap n
  inflight h := h.card.symm
  own _ h := ⟨h.cells, h.head, h.count, h.bag⟩

/-- One file and one buffer, registered. -/
def oneFile : PwriteBackend :=
  (((start fun _ => 4096).registerFiles [3]).2.registerBuffers [⟨4096, 65536⟩]).2

end PwriteBackend

end MotorRv
