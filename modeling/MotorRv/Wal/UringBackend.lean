import MotorRv.Wal.Backends

/-!
# The production backend

`UringBackend` hands each write to the kernel with its token, and keeps in a table of slots what was
asked for: a completion that the kernel posts carries the token only, and the table gives the
length. The kernel gives each write back once, in any order, with any result. A submission that the
kernel takes only later stays in the queue; one that it refuses with an error stays there too, so
that it would be taken by a later submission without having a slot. The contract is kept as long as
no submission is refused with an error.

The ring is a record of lists and cursors, and the kernel is a parameter with a contract
(`Kernel.Contract`) and events of its own (`KernelEvent`), which happen between any two calls of the
log. That the kernel takes the oldest entries of the submission queue and no others is part of the
definition of `enter`.

`Holds` connects three places: the slots in use, the tokens that the kernel still owes, queued,
taken or posted, and the bag of the contract. A submission fills a slot, a visible completion frees
the slot of its token, and whatever the kernel does moves a token from one of its lists to the next.
-/

namespace MotorRv

open Lib

/-- What the calls of the kernel answer: whether the `n`-th `io_uring_get_sqe` finds an entry, what
the `n`-th `io_uring_submit` returns, and how many finished writes the `n`-th `io_uring_get_events`
makes visible, if it does not fail. -/
structure Kernel where
  sqe : ℕ → Bool
  submitted : ℕ → ℤ
  events : ℕ → Option ℕ

/-- What is asked of the kernel. That an `io_uring_submit` takes from the queue its oldest entries
and no others is in `enter`, and that an entry taken is given back at most once, with its own token,
and nothing else is given back, is in `KernelEvent`. Beyond that no submission may fail: one that is
refused with an error leaves its entry in the queue without a slot. -/
structure Kernel.Contract (kernel : Kernel) : Prop where
  submitted : ∀ n, 0 ≤ kernel.submitted n

namespace UringBackend

structure Slot where
  token : ℕ
  expected : ℕ
  used : Bool
  deriving DecidableEq

/-- What the kernel does by itself: one of the writes it has taken ends, any of them and with any
result, or the writes that ended first become visible. No other write ends, and none ends twice. -/
inductive KernelEvent
  | finish (i : ℕ) (res : ℤ)
  | post (k : ℕ)

end UringBackend

structure UringBackend where
  kernel : Kernel
  gets : ℕ
  submits : ℕ
  enters : ℕ
  sq : List ℕ
  running : List ℕ
  finished : List (ℕ × ℤ)
  cq : List (ℕ × ℤ)
  slots : List UringBackend.Slot
  inflight : ℕ
  isOpen : Bool
  deferTaskrun : Bool

namespace UringBackend

/-- A ring that was opened. -/
def start (kernel : Kernel) (deferTaskrun : Bool) : UringBackend :=
  ⟨kernel, 0, 0, 0, [], [], [], [], List.replicate kMaxInflight ⟨0, 0, false⟩, 0, true,
    deferTaskrun⟩

/-- The kernel takes the first entries of the submission queue. -/
def enter (u : UringBackend) (token n : ℕ) : UringBackend :=
  { u with
    gets := u.gets + 1
    submits := u.submits + 1
    sq := (u.sq ++ [token]).drop n
    running := u.running ++ (u.sq ++ [token]).take n }

def submit (u : UringBackend) (_buf : ℕ) (req : WriteRequest) : Status × UringBackend :=
  if u.isOpen = false then (.fail .invalidArgument, u)
  else if kMaxInflight ≤ u.inflight then (.fail .walFull (.ofNat u.inflight), u)
  else
    -- the slot comes before the entry
    match u.slots.findIdx? fun s => !s.used with
    | none => (.fail .walFull (.ofNat u.inflight), u)
    | some idx =>
      if u.kernel.sqe u.gets = false then
        (.fail .walFull (.ofNat u.inflight), { u with gets := u.gets + 1 })
      else
        let rc := u.kernel.submitted u.submits
        if rc < 0 then (.fail .ioError (.ofNat rc.natAbs), u.enter req.token 0)
        else
          (.kOk, { u.enter req.token rc.toNat with
            slots := u.slots.set idx ⟨req.token, req.len, true⟩
            inflight := u.inflight + 1 })

/-- A completion without a slot expects nothing. -/
def takeExpected (u : UringBackend) (token : ℕ) : ℕ × UringBackend :=
  match u.slots.findIdx? fun s => s.used && decide (s.token = token) with
  | none => (0, u)
  | some i =>
    match u.slots[i]? with
    | none => (0, u)
    | some s => (s.expected, { u with
        slots := u.slots.set i { s with used := false }
        inflight := u.inflight - 1 })

/-- Read the completion queue, as far as there is room. -/
def peek : UringBackend → ℕ → List Completion × UringBackend
  | u, 0 => ([], u)
  | u, room + 1 =>
    match u.cq with
    | [] => ([], u)
    | (token, res) :: rest =>
      let taken := { u with cq := rest }.takeExpected token
      (⟨token, res, taken.1⟩ :: (peek taken.2 room).1, (peek taken.2 room).2)

/-- Ended writes become visible. -/
def post (u : UringBackend) (k : ℕ) : UringBackend :=
  { u with finished := u.finished.drop k, cq := u.cq ++ u.finished.take k }

/-- The queue is read again, after entering the kernel. -/
def peekAgain (u : UringBackend) (room : ℕ) : List Completion × UringBackend :=
  match u.kernel.events u.enters with
  | none => ([], { u with enters := u.enters + 1 })
  | some k => ({ u with enters := u.enters + 1 }.post k).peek room

/-- The queue is read twice only if nothing was in it and the kernel defers its work. -/
def reap (u : UringBackend) (room : ℕ) : List Completion × UringBackend :=
  if u.isOpen = false ∨ room = 0 then ([], u)
  else if (u.peek room).1 ≠ [] ∨ (u.peek room).2.deferTaskrun = false then u.peek room
  else (u.peek room).2.peekAgain room

def kernelStep (u : UringBackend) : KernelEvent → UringBackend
  | .finish i res =>
    match u.running[i]? with
    | none => u
    | some token => { u with
        running := u.running.eraseIdx i
        finished := u.finished ++ [(token, res)] }
  | .post k => u.post k

/-- As the log sees it; the kernel acts between the calls. -/
def backend : Backend UringBackend KernelEvent where
  submit := submit
  reap := reap
  inflight u := u.inflight
  own := kernelStep

/-! ### The slots -/

def Slot.key (s : Slot) : InFlight := (s.token, s.expected)

/-- The slots in use. -/
def used (slots : List Slot) : Multiset InFlight :=
  ((slots.filter fun s => s.used).map Slot.key : Multiset InFlight)

/-- The tokens that the kernel still has to give back. -/
def owed (u : UringBackend) : Multiset ℕ :=
  (u.sq : Multiset ℕ) + u.running + (u.finished.map Prod.fst : Multiset ℕ) +
    (u.cq.map Prod.fst : Multiset ℕ)

/-- The slots hold the bag, and the kernel has a token for each. -/
structure Holds (u : UringBackend) (m : Multiset InFlight) : Prop where
  bag : m = used u.slots
  count : u.inflight = m.card
  owed : m.map Prod.fst = u.owed
  contract : u.kernel.Contract

variable {u : UringBackend} {m : Multiset InFlight}

/-- The writes of the table do not depend on the order of its slots. -/
theorem used_perm {l l' : List Slot} (h : l.Perm l') : used l = used l' :=
  Multiset.coe_eq_coe.mpr ((h.filter _).map _)

/-- The write of one slot more. -/
theorem used_cons (s : Slot) (l : List Slot) :
    used (s :: l) = if s.used then s.key ::ₘ used l else used l := by
  unfold used
  split_ifs with h
  · rw [List.filter_cons_of_pos h, List.map_cons, Multiset.cons_coe]
  · rw [List.filter_cons_of_neg h]

/-- A slot that is not in use is filled. -/
theorem used_fill {l : List Slot} {i : ℕ} {s s' : Slot} (hi : l[i]? = some s)
    (hs : s.used = false) (hs' : s'.used = true) : used (l.set i s') = s'.key ::ₘ used l := by
  obtain ⟨hlt, rfl⟩ := List.getElem?_eq_some_iff.mp hi
  rw [used_perm (List.set_perm_cons_eraseIdx hlt s'), used_cons, if_pos hs',
    ← used_perm (List.getElem_cons_eraseIdx_perm hlt), used_cons, hs, if_neg Bool.false_ne_true]

/-- A slot in use is freed. -/
theorem used_free {l : List Slot} {i : ℕ} {s s' : Slot} (hi : l[i]? = some s)
    (hs : s.used = true) (hs' : s'.used = false) : used l = s.key ::ₘ used (l.set i s') := by
  obtain ⟨hlt, rfl⟩ := List.getElem?_eq_some_iff.mp hi
  rw [used_perm (List.set_perm_cons_eraseIdx hlt s'), used_cons, hs', if_neg Bool.false_ne_true,
    ← used_perm (List.getElem_cons_eraseIdx_perm hlt), used_cons, if_pos hs]

/-- A submission that the kernel takes is owed by it. -/
theorem owed_enter (u : UringBackend) (token n : ℕ) :
    (u.enter token n).owed = token ::ₘ u.owed := by
  have hsplit : ((u.sq ++ [token]).take n : Multiset ℕ) + (u.sq ++ [token]).drop n =
      (u.sq : Multiset ℕ) + {token} := by
    rw [Multiset.coe_add, List.take_append_drop, ← Multiset.coe_add, Multiset.coe_singleton]
  simp only [owed, enter, ← Multiset.coe_add, ← Multiset.singleton_add]
  rw [show ((u.sq ++ [token]).drop n : Multiset ℕ) + (u.running + (u.sq ++ [token]).take n) =
      u.running + (((u.sq ++ [token]).take n : Multiset ℕ) + (u.sq ++ [token]).drop n) by abel,
    hsplit]
  abel

/-- A completion that is posted is still owed until it is reaped. -/
theorem owed_post (u : UringBackend) (k : ℕ) : (u.post k).owed = u.owed := by
  have hsplit : ((u.finished.take k).map Prod.fst : Multiset ℕ) +
      ((u.finished.drop k).map Prod.fst : Multiset ℕ) = (u.finished.map Prod.fst : Multiset ℕ) := by
    rw [Multiset.coe_add, ← List.map_append, List.take_append_drop]
  simp only [owed, post, List.map_append, ← Multiset.coe_add, ← hsplit]
  abel

/-- A submission that is accepted is one write more. -/
theorem Holds.submit (h : Holds u m) (buf : ℕ) (req : WriteRequest) :
    Holds (u.submit buf req).2
      (if (u.submit buf req).1.isOk then req.key ::ₘ m else m) := by
  unfold UringBackend.submit
  split
  · exact h
  · split
    · exact h
    · split
      · exact h
      · next idx hidx =>
        split
        · exact ⟨h.bag, h.count, h.owed, h.contract⟩
        · have hrc : ¬ u.kernel.submitted u.submits < 0 := not_lt.mpr (h.contract.submitted _)
          obtain ⟨hlt, hfree, -⟩ := List.findIdx?_eq_some_iff_getElem.mp hidx
          simp only [hrc, if_false, Status.isOk_kOk, if_true]
          refine ⟨?_, ?_, ?_, h.contract⟩
          · rw [used_fill (List.getElem?_eq_getElem hlt) (by simpa using hfree) rfl, h.bag]
            rfl
          · rw [Multiset.card_cons, ← h.count]
          · rw [Multiset.map_cons, h.owed]
            exact (owed_enter u req.token _).symm

/-- A visible completion finds the slot of its write. -/
theorem Holds.take (h : Holds u m) {token : ℕ} {res : ℤ} {rest : List (ℕ × ℤ)}
    (hcq : u.cq = (token, res) :: rest) :
    ∃ m', m = (token, ({ u with cq := rest }.takeExpected token).1) ::ₘ m' ∧
      Holds ({ u with cq := rest }.takeExpected token).2 m' := by
  have howed : u.owed = token ::ₘ ({ u with cq := rest } : UringBackend).owed := by
    simp only [UringBackend.owed, hcq, List.map_cons, ← Multiset.cons_coe, Multiset.add_cons]
  have hmem : token ∈ m.map Prod.fst := by
    rw [h.owed, howed]
    exact Multiset.mem_cons_self _ _
  obtain ⟨⟨t, e⟩, hkey, rfl⟩ := Multiset.mem_map.mp hmem
  rw [h.bag, used] at hkey
  obtain ⟨s₀, hs₀, hs₀key⟩ := List.mem_map.mp (Multiset.mem_coe.mp hkey)
  obtain ⟨hin, hused⟩ := List.mem_filter.mp hs₀
  -- the completion has a token that is owed, so the search finds its slot
  obtain ⟨i, hi⟩ : ∃ i, (u.slots.findIdx? fun s => s.used && decide (s.token = t)) = some i := by
    refine Option.isSome_iff_exists.mp ?_
    rw [List.findIdx?_isSome]
    refine List.any_eq_true.mpr ⟨s₀, hin, ?_⟩
    rw [hused, Bool.true_and]
    exact decide_eq_true (congrArg Prod.fst hs₀key)
  obtain ⟨hlt, hp, -⟩ := List.findIdx?_eq_some_iff_getElem.mp hi
  have hs := List.getElem?_eq_getElem hlt
  generalize u.slots[i] = s at hp hs
  simp only [Bool.and_eq_true, decide_eq_true_eq] at hp
  have hfree : used u.slots = s.key ::ₘ used (u.slots.set i { s with used := false }) :=
    used_free hs hp.1 rfl
  rw [← h.bag] at hfree
  have hkeys : (t, s.expected) = s.key := by rw [Slot.key, hp.2]
  simp only [takeExpected, hi, hs]
  refine ⟨_, hfree.trans (by rw [hkeys]), rfl, ?_, ?_, h.contract⟩
  · show u.inflight - 1 = _
    rw [h.count, hfree, Multiset.card_cons, Nat.add_sub_cancel]
  · have hmap := h.owed
    rw [hfree, Multiset.map_cons, howed, ← hkeys] at hmap
    exact (Multiset.cons_inj_right t).mp hmap

/-- What is reaped are writes of the table. -/
theorem Holds.peek : ∀ (room : ℕ) {u : UringBackend} {m : Multiset InFlight}, Holds u m →
    (u.peek room).1.length ≤ room ∧ ∃ m',
      m = ((u.peek room).1.map Completion.key : Multiset InFlight) + m' ∧ Holds (u.peek room).2 m'
  | 0, u, m, h => ⟨Nat.le_refl 0, m, by simp [UringBackend.peek], h⟩
  | room + 1, u, m, h => by
    rw [UringBackend.peek]
    split
    · exact ⟨Nat.zero_le _, m, by simp, h⟩
    · next token res rest hcq =>
      obtain ⟨m₁, hm, hnext⟩ := h.take hcq
      obtain ⟨hlen, m', hm', hend⟩ := hnext.peek room
      refine ⟨Nat.succ_le_succ hlen, m', ?_, hend⟩
      rw [hm, hm', List.map_cons, ← Multiset.cons_coe, Multiset.cons_add]
      rfl

/-- Posting a completion leaves the writes. -/
theorem Holds.post (h : Holds u m) (k : ℕ) : Holds (u.post k) m :=
  ⟨h.bag, h.count, h.owed.trans (owed_post u k).symm, h.contract⟩

/-- A harvest gives back writes that were accepted, each once. -/
theorem Holds.reap (h : Holds u m) (room : ℕ) : (u.reap room).1.length ≤ room ∧ ∃ m',
    m = ((u.reap room).1.map Completion.key : Multiset InFlight) + m' ∧
      Holds (u.reap room).2 m' := by
  unfold UringBackend.reap
  split_ifs with hclosed hfirst
  · exact ⟨Nat.zero_le _, m, by simp, h⟩
  · exact h.peek room
  · -- nothing was there: the first round changed nothing that counts
    obtain ⟨-, m', hm, hmid⟩ := h.peek room
    have hnil : (u.peek room).1 = [] := by
      by_contra hne
      exact hfirst (.inl hne)
    rw [hnil] at hm
    obtain rfl : m = m' := by simpa using hm
    have hin : Holds { (u.peek room).2 with enters := (u.peek room).2.enters + 1 } m :=
      ⟨hmid.bag, hmid.count, hmid.owed, hmid.contract⟩
    unfold peekAgain
    split
    · exact ⟨Nat.zero_le _, m, by simp, hin⟩
    · exact (hin.post _).peek room

/-- Whatever the kernel does, the writes are kept. -/
theorem Holds.kernelStep (h : Holds u m) (k : KernelEvent) : Holds (u.kernelStep k) m := by
  cases k with
  | finish i res =>
    simp only [UringBackend.kernelStep]
    split
    · exact h
    · next token htoken =>
      refine ⟨h.bag, h.count, h.owed.trans ?_, h.contract⟩
      obtain ⟨hlt, rfl⟩ := List.getElem?_eq_some_iff.mp htoken
      have hsplit : (u.running : Multiset ℕ) =
        u.running[i] ::ₘ (u.running.eraseIdx i : Multiset ℕ) := by
        rw [Multiset.cons_coe, Multiset.coe_eq_coe]
        exact (List.getElem_cons_eraseIdx_perm hlt).symm
      simp only [UringBackend.owed, List.map_append, ← Multiset.coe_add, List.map_singleton,
        Multiset.coe_singleton]
      rw [hsplit, ← Multiset.singleton_add]
      abel
  | post k => exact h.post k

/-- The production backend keeps the contract. -/
theorem bag : backend.Bag (fun _ => True) Holds where
  submit buf req h _ := h.submit buf req
  reap n h := h.reap n
  inflight h := h.count
  own k h := h.kernelStep k

/-- **The production backend is a script.** Under a kernel that keeps its contract, whatever entries
it has, however many it takes at a time, and in whatever order and with whatever results it gives
the writes back, every run of calls is answered as the scripted backend answers it, under some
script. -/
theorem uring_scripted (kernel : Kernel) (hkernel : kernel.Contract) (deferTaskrun : Bool)
    (ops : List (BackendOp KernelEvent)) :
    ∃ sc, (runOps backend.step (start kernel deferTaskrun) ops).1 =
      (runOps (IoBackend.scripted KernelEvent).step (.start sc) ops).1 := by
  refine bag.scripted (s := start kernel deferTaskrun) ⟨rfl, rfl, rfl, hkernel⟩ ?_
  refine Contract.asked_of_forall (fun m o => ?_) ops _ 0
  cases o <;> exact trivial

/-- Two writes that end in the other order; the second reading of the queue finds them. -/
theorem uring_scripted_two :
    (runOps backend.step (start ⟨fun _ => true, fun _ => 1, fun _ => some 2⟩ true)
      [.submit 0 ⟨[], 0, 1, 4096, 0, 0⟩, .submit 0 ⟨[], 4096, 2, 8192, 0, 0⟩, .own (.finish 1 8192),
        .own (.finish 0 (-5)), .reap 32, .inflight]).1 =
      [.status .kOk, .status .kOk, .nothing, .nothing,
        .completions [⟨2, 8192, 8192⟩, ⟨1, -5, 4096⟩], .count 0] ∧
    ∃ sc, (runOps backend.step (start ⟨fun _ => true, fun _ => 1, fun _ => some 2⟩ true)
      [.submit 0 ⟨[], 0, 1, 4096, 0, 0⟩, .submit 0 ⟨[], 4096, 2, 8192, 0, 0⟩, .own (.finish 1 8192),
        .own (.finish 0 (-5)), .reap 32, .inflight]).1 =
      (runOps (IoBackend.scripted KernelEvent).step (.start sc)
        [.submit 0 ⟨[], 0, 1, 4096, 0, 0⟩, .submit 0 ⟨[], 4096, 2, 8192, 0, 0⟩,
          .own (.finish 1 8192), .own (.finish 0 (-5)), .reap 32, .inflight]).1 :=
  ⟨rfl, uring_scripted _ ⟨fun _ => Int.one_nonneg⟩ true _⟩

end UringBackend

end MotorRv
