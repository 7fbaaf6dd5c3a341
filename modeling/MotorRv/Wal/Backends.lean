import MotorRv.Lib.Contracts
import MotorRv.Lib.Ring
import MotorRv.Wal.IoBackend

/-!
# The backends of the repository

What the log relies on is a contract: a backend keeps a bag of the writes in flight, each known by
its token and its length. A write that is accepted goes into the bag, a completion takes its write
out, whatever the result, and nothing else changes the bag. A backend that keeps the contract
answers, in every run, as the scripted backend does under some script, so what is proved about the
log under every script holds of the log over it.

`Backend` is the interface of the code, with one addition: `own` is what a backend does beside the
calls of the log, such as a kernel that finishes a write or a test that arms a fault. The bag says
nothing of what stands in the file, nor of the order of completions, nor of their results; it is
what the log's bookkeeping rests on and no more.

The translation to a script goes through the answers. What a harvest took out of the bag, some list
of picks takes out of the pending list of the scripted backend (`exists_picks`), and a whole run of
answers is collected into one script (`exists_choices`). `Backend.Bag.scripted` puts this behind the
contract's run lemma, so a new backend costs one proof of `Backend.Bag` and nothing else.
-/

namespace MotorRv

open Lib

/-! ### The interface -/

/-- A backend that is registered; `own` is what happens to it beside the calls of the log. -/
structure Backend (σ κ : Type) where
  submit : σ → ℕ → WriteRequest → Status × σ
  reap : σ → ℕ → List Completion × σ
  inflight : σ → ℕ
  own : σ → κ → σ

/-- The calls; a write comes with the address of its bytes. -/
inductive BackendOp (κ : Type)
  | submit (buf : ℕ) (req : WriteRequest)
  | reap (room : ℕ)
  | inflight
  | own (k : κ)

inductive BackendAnswer
  | status (st : Status)
  | completions (cs : List Completion)
  | count (n : ℕ)
  | nothing

variable {σ κ : Type}

/-- One call. -/
def Backend.step (B : Backend σ κ) (s : σ) : BackendOp κ → BackendAnswer × σ
  | .submit buf req => (.status (B.submit s buf req).1, (B.submit s buf req).2)
  | .reap room => (.completions (B.reap s room).1, (B.reap s room).2)
  | .inflight => (.count (B.inflight s), s)
  | .own k => (.nothing, B.own s k)

/-- The backend of the log's model, which knows no address and on which nothing else acts. -/
def IoBackend.scripted (κ : Type) : Backend IoBackend κ where
  submit be _ req := be.submit req
  reap be room := be.reap room
  inflight be := be.pending.length
  own be _ := be

/-! ### The contract -/

/-- A write in flight: its token and its length. -/
abbrev InFlight := ℕ × ℕ

def WriteRequest.key (req : WriteRequest) : InFlight := (req.token, req.len)

def Completion.key (c : Completion) : InFlight := (c.token, c.expected)

/-- The bag of the writes in flight; `room` says when another one may be handed over. -/
def backendContract (κ : Type) (room : ℕ → Prop) :
    Contract (Multiset InFlight) (BackendOp κ) BackendAnswer where
  asks
    | m, .submit _ _ => room m.card
    | _, _ => True
  allows
    | _, .submit _ _, .status _ => True
    | m, .reap n, .completions cs => cs.length ≤ n ∧ (cs.map Completion.key : Multiset InFlight) ≤ m
    | m, .inflight, .count n => n = m.card
    | _, .own _, .nothing => True
    | _, _, _ => False
  after
    | m, .submit _ req, .status st => if st.isOk then req.key ::ₘ m else m
    | m, .reap _, .completions cs => m - (cs.map Completion.key : Multiset InFlight)
    | m, _, _ => m

/-- What a backend keeps, call by call. -/
structure Backend.Bag (B : Backend σ κ) (room : ℕ → Prop) (R : σ → Multiset InFlight → Prop) :
    Prop where
  submit : ∀ {s m} buf req, R s m → room m.card → R (B.submit s buf req).2
    (if (B.submit s buf req).1.isOk then req.key ::ₘ m else m)
  reap : ∀ {s m} n, R s m → (B.reap s n).1.length ≤ n ∧
    ∃ m', m = ((B.reap s n).1.map Completion.key : Multiset InFlight) + m' ∧ R (B.reap s n).2 m'
  inflight : ∀ {s m}, R s m → B.inflight s = m.card
  own : ∀ {s m} k, R s m → R (B.own s k) m

/-- A client that asks less. -/
theorem Backend.Bag.mono {B : Backend σ κ} {room room' : ℕ → Prop}
    {R : σ → Multiset InFlight → Prop} (h : B.Bag room R) (hroom : ∀ n, room' n → room n) :
    B.Bag room' R where
  submit buf req hR hm := h.submit buf req hR (hroom _ hm)
  reap := h.reap
  inflight := h.inflight
  own := h.own

theorem Backend.Bag.keeps {B : Backend σ κ} {room : ℕ → Prop} {R : σ → Multiset InFlight → Prop}
    (h : B.Bag room R) : (backendContract κ room).Keeps B.step R := by
  intro s m o hR hasks
  cases o with
  | submit buf req => exact ⟨trivial, h.submit buf req hR hasks⟩
  | reap n =>
    obtain ⟨hlen, m', hm, hR'⟩ := h.reap n hR
    refine ⟨⟨hlen, hm ▸ Multiset.le_add_right _ _⟩, ?_⟩
    show R (B.reap s n).2 (m - _)
    rw [hm, add_tsub_cancel_left]
    exact hR'
  | inflight => exact ⟨h.inflight hR, hR⟩
  | own k => exact ⟨trivial, h.own k hR⟩

/-! ### Scripts -/

/-- What a harvest takes from the bag, some picks take from the list. -/
theorem exists_picks : ∀ (cs : List Completion) (pending : List WriteRequest),
    (cs.map Completion.key : Multiset InFlight) ≤
    (pending.map WriteRequest.key : Multiset InFlight) →
      ∃ picks rest, picks.length = cs.length ∧ IoBackend.harvest picks pending = (cs, rest) ∧
        (rest.map WriteRequest.key : Multiset InFlight) =
          (pending.map WriteRequest.key : Multiset InFlight) -
            (cs.map Completion.key : Multiset InFlight)
  | [], pending, _ => ⟨[], pending, rfl, rfl, by simp⟩
  | c :: cs, pending, h => by
    have hmem : c.key ∈ (pending.map WriteRequest.key : Multiset InFlight) :=
      Multiset.mem_of_le h (by simp)
    obtain ⟨req, hreq, hkey⟩ := List.mem_map.mp (Multiset.mem_coe.mp hmem)
    obtain ⟨i, hi⟩ := List.mem_iff_getElem?.mp hreq
    -- the bag without the write is that of the list without its place
    have hsplit : (pending.map WriteRequest.key : Multiset InFlight) =
        c.key ::ₘ ((pending.eraseIdx i).map WriteRequest.key : Multiset InFlight) := by
      obtain ⟨hlt, rfl⟩ := List.getElem?_eq_some_iff.mp hi
      rw [← hkey, Multiset.cons_coe, Multiset.coe_eq_coe, ← List.map_cons]
      exact ((List.getElem_cons_eraseIdx_perm hlt).map WriteRequest.key).symm
    have hle : (cs.map Completion.key : Multiset InFlight) ≤
        ((pending.eraseIdx i).map WriteRequest.key : Multiset InFlight) := by
      rw [hsplit, List.map_cons, ← Multiset.cons_coe] at h
      exact (Multiset.cons_le_cons_iff _).mp h
    obtain ⟨picks, rest, hlen, hharvest, hrest⟩ := exists_picks cs (pending.eraseIdx i) hle
    refine ⟨(i, c.res) :: picks, rest, by simp [hlen], ?_, ?_⟩
    · rw [IoBackend.harvest, hi]
      have hc : (⟨req.token, c.res, req.len⟩ : Completion) = c := by
        obtain ⟨token, res, expected⟩ := c
        obtain ⟨htoken, hlen⟩ := Prod.mk.inj hkey
        rw [htoken, hlen]
      simp only [hharvest, hc]
    · rw [hrest, hsplit, List.map_cons, ← Multiset.cons_coe, Multiset.sub_cons,
        Multiset.erase_cons_head]

/-- What the script still has to give is what was chosen. -/
structure IoBackend.Follows (be : IoBackend) (sts : List Status) (picks : List (List (ℕ × ℤ))) :
    Prop where
  answer : ∀ i st, sts[i]? = some st → be.script.answer (be.submits + i) = st
  pick : ∀ i ps, picks[i]? = some ps → be.script.pick (be.reaps + i) = ps

theorem IoBackend.Follows.submit {be : IoBackend} {st : Status} {sts : List Status}
    {picks : List (List (ℕ × ℤ))} (h : be.Follows (st :: sts) picks) (req : WriteRequest) :
    (be.submit req).1 = st ∧ (be.submit req).2.Follows sts picks ∧
      (be.submit req).2.pending = if st.isOk then be.pending ++ [req] else be.pending := by
  have hst : be.script.answer be.submits = st := h.answer 0 st rfl
  have hnext : ∀ i st', sts[i]? = some st' → be.script.answer (be.submits + 1 + i) = st' := by
    intro i st' hi
    rw [Nat.add_assoc, Nat.add_comm 1 i]
    exact h.answer (i + 1) st' hi
  simp only [IoBackend.submit, hst]
  split_ifs
  · exact ⟨rfl, ⟨hnext, h.pick⟩, rfl⟩
  · exact ⟨rfl, ⟨hnext, h.pick⟩, rfl⟩

theorem IoBackend.Follows.reap {be : IoBackend} {sts : List Status} {ps : List (ℕ × ℤ)}
    {picks : List (List (ℕ × ℤ))} (h : be.Follows sts (ps :: picks)) {room : ℕ}
    (hroom : ps.length ≤ room) {cs : List Completion} {rest : List WriteRequest}
    (hharvest : harvest ps be.pending = (cs, rest)) :
    (be.reap room).1 = cs ∧ (be.reap room).2.Follows sts picks ∧
    (be.reap room).2.pending = rest := by
  have hpick : be.script.pick be.reaps = ps := h.pick 0 ps rfl
  simp only [IoBackend.reap, hpick, List.take_of_length_le hroom, hharvest]
  refine ⟨trivial, ⟨h.answer, fun i ps' hi => ?_⟩, trivial⟩
  rw [Nat.add_assoc, Nat.add_comm 1 i]
  exact h.pick (i + 1) ps' hi

/-- Answers that the contract allows, a script gives. -/
theorem exists_choices {room : ℕ → Prop} : ∀ (ops : List (BackendOp κ)) (as : List BackendAnswer)
    (pending : List WriteRequest),
    (backendContract κ room).Served (pending.map WriteRequest.key : Multiset InFlight) ops as →
      ∃ sts picks, ∀ be : IoBackend, be.pending = pending → be.Follows sts picks →
        (runOps (IoBackend.scripted κ).step be ops).1 = as
  | [], [], _, _ => ⟨[], [], fun _ _ _ => rfl⟩
  | .submit buf req :: ops, .status st :: as, pending, h => by
    -- a write that is taken is appended to those outstanding
    have hafter : (backendContract κ room).after (pending.map WriteRequest.key : Multiset InFlight)
        (.submit buf req) (.status st) =
          ((if st.isOk then pending ++ [req] else pending).map WriteRequest.key :) := by
      simp only [backendContract]
      split_ifs
      · rw [List.map_append, ← Multiset.coe_add, ← Multiset.singleton_add, Multiset.add_comm]
        rfl
      · rfl
    obtain ⟨sts, picks, hrun⟩ :=
      exists_choices ops as (if st.isOk then pending ++ [req] else pending)
      (hafter ▸ h.2)
    refine ⟨st :: sts, picks, fun be hpending hfollows => ?_⟩
    obtain ⟨hst, hnext, hpend⟩ := hfollows.submit req
    rw [hpending] at hpend
    rw [runOps]
    exact congr (congrArg List.cons (congrArg BackendAnswer.status hst)) (hrun _ hpend hnext)
  | .reap n :: ops, .completions cs :: as, pending, h => by
    -- the completions are known writes, so some order of picks gives them
    obtain ⟨ps, rest, hlen, hharvest, hrest⟩ := exists_picks cs pending h.1.2
    have hafter : (backendContract κ room).after (pending.map WriteRequest.key : Multiset InFlight)
        (.reap n) (.completions cs) = (rest.map WriteRequest.key : Multiset InFlight) := hrest.symm
    obtain ⟨sts, picks, hrun⟩ := exists_choices ops as rest (hafter ▸ h.2)
    refine ⟨sts, ps :: picks, fun be hpending hfollows => ?_⟩
    obtain ⟨hcs, hnext, hpend⟩ := hfollows.reap (hlen ▸ h.1.1) (hpending ▸ hharvest)
    rw [runOps]
    exact congr (congrArg List.cons (congrArg BackendAnswer.completions hcs)) (hrun _ hpend hnext)
  | .inflight :: ops, .count n :: as, pending, h => by
    obtain ⟨sts, picks, hrun⟩ := exists_choices ops as pending h.2
    refine ⟨sts, picks, fun be hpending hfollows => ?_⟩
    have hcount : be.pending.length = n := by rw [hpending, h.1]; simp
    rw [runOps]
    exact congr (congrArg List.cons (congrArg BackendAnswer.count hcount))
      (hrun _ hpending hfollows)
  | .own k :: ops, .nothing :: as, pending, h => by
    obtain ⟨sts, picks, hrun⟩ := exists_choices ops as pending h.2
    exact ⟨sts, picks, fun be hpending hfollows =>
      congrArg (List.cons BackendAnswer.nothing) (hrun _ hpending hfollows)⟩

/-- **Backends are scripts.** A backend that keeps the contract answers every run of a client that
keeps it too as the scripted backend does, under some script. -/
theorem Backend.Bag.scripted {B : Backend σ κ} {room : ℕ → Prop} {R : σ → Multiset InFlight → Prop}
    (h : B.Bag room R) {s : σ} (hs : R s 0) {ops : List (BackendOp κ)}
    (hasked : (backendContract κ room).Asked 0 ops (runOps B.step s ops).1) :
    ∃ sc, (runOps B.step s ops).1 = (runOps (IoBackend.scripted κ).step (.start sc) ops).1 := by
  have hserved := h.keeps.served ops s 0 hs hasked
  obtain ⟨sts, picks, hrun⟩ := exists_choices ops _ [] hserved
  refine ⟨⟨fun n => sts.getD n .kOk, fun n => picks.getD n []⟩, (hrun _ rfl ⟨?_, ?_⟩).symm⟩
  · intro i st hi
    show sts.getD (0 + i) .kOk = st
    rw [Nat.zero_add, List.getD_eq_getElem?_getD, hi]
    rfl
  · intro i ps hi
    show picks.getD (0 + i) [] = ps
    rw [Nat.zero_add, List.getD_eq_getElem?_getD, hi]
    rfl

end MotorRv
