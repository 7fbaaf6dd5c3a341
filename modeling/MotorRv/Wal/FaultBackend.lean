import MotorRv.Wal.PwriteBackend

/-!
# The backend that lies

`FaultBackend` wraps a backend and, by rules armed for a token, shortens a write, makes it fail
without writing, or holds its completion back; it may give the newest completion first. What it
changes are results, delays and orders, none of which the contract speaks of, so over a backend that
keeps the contract it keeps the contract.

The wrapper keeps two tables, one of fixups for the writes that are still inside, and one of
completions that wait to be given; `known` is the bag of both, and `Holds` says that it is the bag
of the contract and that no table overflows. A completion that comes back from inside moves from the
one table to the other, with its result changed if a fixup says so (`arrive_spec`); a write that is
to fail never goes inside.

The bound of the contract is half the size of the tables (`kMaxInflight` writes at a time). Past
what the tables hold the code drops completions, and a write is then lost for good.
-/

namespace MotorRv

open Lib

namespace FaultBackend

inductive Delivery
  | fifo
  | lifo
  deriving DecidableEq

inductive Kind
  | short
  | error
  | hold
  deriving DecidableEq

structure Rule where
  token : ℕ
  kind : Kind
  arg : ℕ

structure Fixup where
  token : ℕ
  announced : ℕ
  hold : Bool

structure Pend where
  c : Completion
  held : Bool

def kRules : ℕ := 16
def kPend : ℕ := kMaxInflight * 2

/-- What the tests do beside the calls: arm rules, release, choose the order; or whatever happens to
the backend inside. -/
inductive Knob (κ : Type)
  | injectShortWrite (token bytes : ℕ)
  | injectError (token : ℕ) (err : ℤ)
  | hold (token : ℕ)
  | releaseHeld
  | setDelivery (d : Delivery)
  | clearRules
  | inner (k : κ)

end FaultBackend

structure FaultBackend (σ : Type) where
  inner : σ
  rules : List FaultBackend.Rule
  fix : List FaultBackend.Fixup
  pend : List FaultBackend.Pend
  delivery : FaultBackend.Delivery

namespace FaultBackend

variable {σ κ : Type}

def start (inner : σ) : FaultBackend σ := ⟨inner, [], [], [], .fifo⟩

/-- The last element takes the place of the one that goes. -/
def swapRemove {α : Type*} (l : List α) (i : ℕ) : List α :=
  match l.getLast? with
  | none => l
  | some x => (l.set i x).dropLast

def arm (fb : FaultBackend σ) (r : Rule) : FaultBackend σ :=
  if fb.rules.length < kRules then { fb with rules := fb.rules ++ [r] } else fb

/-- The first rule for a token, which is then spent. -/
def consume (fb : FaultBackend σ) (token : ℕ) : Option Rule × FaultBackend σ :=
  match fb.rules.findIdx? fun r => decide (r.token = token) with
  | none => (none, fb)
  | some i => (fb.rules[i]?, { fb with rules := swapRemove fb.rules i })

/-- A completion that finds no room is dropped. -/
def push (fb : FaultBackend σ) (c : Completion) (held : Bool) : FaultBackend σ :=
  if fb.pend.length < kPend then { fb with pend := fb.pend ++ [⟨c, held⟩] } else fb

/-- What is written of a request. -/
def effective (req : WriteRequest) : Option Rule → WriteRequest
  | some ⟨_, .short, arg⟩ => { req with len := min arg req.len }
  | _ => req

def holds : Option Rule → Bool
  | some ⟨_, .hold, _⟩ => true
  | _ => false

/-- The write goes inside, and its fixup is noted if it is accepted there. -/
def forward (B : Backend σ κ) (fb : FaultBackend σ) (buf : ℕ) (req : WriteRequest)
    (r : Option Rule) : Status × FaultBackend σ :=
  if (B.submit fb.inner buf (effective req r)).1.isOk then
    (.kOk, { fb with
      inner := (B.submit fb.inner buf (effective req r)).2
      fix := fb.fix ++ [⟨req.token, req.len, holds r⟩] })
  else
    ((B.submit fb.inner buf (effective req r)).1,
      { fb with inner := (B.submit fb.inner buf (effective req r)).2 })

def submit (B : Backend σ κ) (fb : FaultBackend σ) (buf : ℕ) (req : WriteRequest) :
    Status × FaultBackend σ :=
  if kPend ≤ fb.pend.length ∨ kPend ≤ fb.fix.length then
    (.fail .walFull (.ofNat fb.pend.length), fb)
  else
    match fb.consume req.token with
    | (some ⟨_, .error, arg⟩, fb') => (.kOk, fb'.push ⟨req.token, -arg, req.len⟩ false)
    | (r, fb') => fb'.forward B buf req r

/-- A completion of the backend inside: it announces the length that was asked for. -/
def arrive (fb : FaultBackend σ) (c : Completion) : FaultBackend σ :=
  match fb.fix.findIdx? fun f => decide (f.token = c.token) with
  | none => fb.push c false
  | some i =>
    match fb.fix[i]? with
    | none => fb.push c false
    | some f =>
      { fb with fix := swapRemove fb.fix i }.push { c with expected := f.announced } f.hold

/-- `drenar_interno` -/
def drain (B : Backend σ κ) (fb : FaultBackend σ) : FaultBackend σ :=
  let (cs, inner) := B.reap fb.inner kMaxInflight
  cs.foldl arrive { fb with inner := inner }

/-- `escolher` -/
def choose (fb : FaultBackend σ) : Option ℕ :=
  match fb.delivery with
  | .fifo => fb.pend.findIdx? fun p => !p.held
  | .lifo => (fb.pend.reverse.findIdx? fun p => !p.held).map fun i => fb.pend.length - 1 - i

/-- Give what is not held, as far as there is room. -/
def give : FaultBackend σ → ℕ → List Completion × FaultBackend σ
  | fb, 0 => ([], fb)
  | fb, room + 1 =>
    match fb.choose with
    | none => ([], fb)
    | some i =>
      match fb.pend[i]? with
      | none => ([], fb)
      | some p =>
        let rest := give { fb with pend := fb.pend.eraseIdx i } room
        (p.c :: rest.1, rest.2)

def releaseHeld (fb : FaultBackend σ) : FaultBackend σ :=
  { fb with
    pend := fb.pend.map fun p => { p with held := false }
    fix := fb.fix.map fun f => { f with hold := false } }

def turn (B : Backend σ κ) (fb : FaultBackend σ) : Knob κ → FaultBackend σ
  | .injectShortWrite token bytes => fb.arm ⟨token, .short, bytes⟩
  | .injectError token err => fb.arm ⟨token, .error, err.natAbs⟩
  | .hold token => fb.arm ⟨token, .hold, 0⟩
  | .releaseHeld => fb.releaseHeld
  | .setDelivery d => { fb with delivery := d }
  | .clearRules => { fb with rules := [] }
  | .inner k => { fb with inner := B.own fb.inner k }

/-- A backend, wrapped. -/
def backend (B : Backend σ κ) : Backend (FaultBackend σ) (Knob κ) where
  submit := submit B
  reap fb room := (fb.drain B).give room
  inflight fb := B.inflight fb.inner + fb.pend.length
  own := turn B

/-! ### The tables -/

theorem swapRemove_perm {α : Type*} {l : List α} {i : ℕ} {x : α} (hi : l[i]? = some x) :
    l.Perm (x :: swapRemove l i) := by
  obtain rfl | ⟨l, y, rfl⟩ := List.eq_nil_or_concat' l
  · cases hi
  · obtain ⟨hlt, hx⟩ := List.getElem?_eq_some_iff.mp hi
    rw [swapRemove, List.getLast?_concat]
    rw [List.length_append, List.length_singleton] at hlt
    rcases Nat.lt_or_ge i l.length with hil | hil
    · -- the last element takes the place
      rw [List.getElem_append_left hil] at hx
      simp only [List.set_append_left _ _ hil, List.dropLast_concat]
      have hset : (x :: l.set i y).Perm (y :: l) := by
        have := List.set_perm_cons_eraseIdx hil y
        refine (this.cons x).trans ((List.Perm.swap y x _).trans (.cons y ?_))
        rw [← hx]
        exact List.getElem_cons_eraseIdx_perm hil
      exact (List.perm_append_singleton y l).trans hset.symm
    · -- it is the last element
      obtain rfl : i = l.length := by omega
      rw [List.getElem_concat_length rfl] at hx
      subst hx
      simp only [List.set_append_right _ _ (Nat.le_refl l.length), Nat.sub_self,
        List.set_cons_zero, List.dropLast_concat]
      exact List.perm_append_singleton y l

def Pend.key (p : Pend) : InFlight := p.c.key

def Fixup.key (f : Fixup) : InFlight := (f.token, f.announced)

/-- The writes that the wrapper knows: those that wait, and those still inside. -/
def known (fb : FaultBackend σ) : Multiset InFlight :=
  (fb.pend.map Pend.key : Multiset InFlight) + (fb.fix.map Fixup.key : Multiset InFlight)

/-- The wrapper holds the bag: what is inside has its fixups, and no table overflows. -/
structure Holds (R : σ → Multiset InFlight → Prop) (fb : FaultBackend σ) (m : Multiset InFlight) :
    Prop where
  inside : ∃ mi, R fb.inner mi ∧ mi.map Prod.fst = (fb.fix.map Fixup.token : Multiset ℕ)
  bag : m = fb.known
  room : m.card ≤ kMaxInflight

variable {R : σ → Multiset InFlight → Prop} {fb : FaultBackend σ} {m : Multiset InFlight}

theorem card_known (fb : FaultBackend σ) : fb.known.card = fb.pend.length + fb.fix.length := by
  simp [known]

theorem known_push (fb : FaultBackend σ) (p : Pend) :
    ({ fb with pend := fb.pend ++ [p] } : FaultBackend σ).known = p.key ::ₘ fb.known := by
  simp only [known, List.map_append, ← Multiset.coe_add, List.map_singleton,
    Multiset.coe_singleton, ← Multiset.singleton_add]
  abel

theorem known_fix (fb : FaultBackend σ) (inner : σ) (f : Fixup) :
    ({ fb with inner := inner, fix := fb.fix ++ [f] } : FaultBackend σ).known =
      f.key ::ₘ fb.known := by
  simp only [known, List.map_append, ← Multiset.coe_add, List.map_singleton,
    Multiset.coe_singleton, ← Multiset.singleton_add]
  abel

/-- What comes back from inside moves from one table to the other. -/
theorem arrive_spec {c : Completion} {ts : Multiset ℕ} (hroom : fb.pend.length < kPend)
    (hts : (fb.fix.map Fixup.token : Multiset ℕ) = c.token ::ₘ ts) :
    (fb.arrive c).inner = fb.inner ∧ (fb.arrive c).known = fb.known ∧
      ((fb.arrive c).fix.map Fixup.token : Multiset ℕ) = ts := by
  have hmem : c.token ∈ (fb.fix.map Fixup.token : Multiset ℕ) := hts ▸ Multiset.mem_cons_self _ _
  obtain ⟨f₀, hf₀, htok⟩ := List.mem_map.mp (Multiset.mem_coe.mp hmem)
  -- the token is one of those noted, so its fixup is found
  obtain ⟨i, hi⟩ : ∃ i, (fb.fix.findIdx? fun f => decide (f.token = c.token)) = some i := by
    refine Option.isSome_iff_exists.mp ?_
    rw [List.findIdx?_isSome]
    exact List.any_eq_true.mpr ⟨f₀, hf₀, decide_eq_true htok⟩
  obtain ⟨hlt, hp, -⟩ := List.findIdx?_eq_some_iff_getElem.mp hi
  have hf := List.getElem?_eq_getElem hlt
  generalize fb.fix[i] = f at hp hf
  have hftok : f.token = c.token := of_decide_eq_true hp
  have hperm := swapRemove_perm hf
  have heq : fb.arrive c = { fb with
      fix := swapRemove fb.fix i
      pend := fb.pend ++ [⟨{ c with expected := f.announced }, f.hold⟩] } := by
    simp only [arrive, hi, hf]
    exact if_pos hroom
  rw [heq]
  refine ⟨rfl, ?_, ?_⟩
  · have hkeys : (fb.fix.map Fixup.key : Multiset InFlight) =
        f.key ::ₘ ((swapRemove fb.fix i).map Fixup.key : Multiset InFlight) := by
      rw [Multiset.cons_coe, Multiset.coe_eq_coe]
      exact hperm.map Fixup.key
    simp only [known, hkeys, List.map_append, ← Multiset.coe_add, List.map_singleton,
      Multiset.coe_singleton, ← Multiset.singleton_add]
    rw [show (⟨{ c with expected := f.announced }, f.hold⟩ : Pend).key = f.key by
      rw [Pend.key, Completion.key, Fixup.key, hftok]]
    abel
  · have htoks : (fb.fix.map Fixup.token : Multiset ℕ) =
        f.token ::ₘ ((swapRemove fb.fix i).map Fixup.token : Multiset ℕ) := by
      rw [Multiset.cons_coe, Multiset.coe_eq_coe]
      exact hperm.map Fixup.token
    rw [htoks, hftok] at hts
    exact (Multiset.cons_inj_right _).mp hts

theorem arrive_all : ∀ (cs : List Completion) {fb : FaultBackend σ} {ts : Multiset ℕ},
    fb.known.card ≤ kMaxInflight →
    (fb.fix.map Fixup.token : Multiset ℕ) = (cs.map (fun c => c.token) : Multiset ℕ) + ts →
      (cs.foldl arrive fb).inner = fb.inner ∧ (cs.foldl arrive fb).known = fb.known ∧
        ((cs.foldl arrive fb).fix.map Fixup.token : Multiset ℕ) = ts
  | [], fb, ts, _, hts => ⟨rfl, rfl, by simpa using hts⟩
  | c :: cs, fb, ts, hcard, hts => by
    rw [List.map_cons, ← Multiset.cons_coe, Multiset.cons_add] at hts
    have hroom : fb.pend.length < kPend := by
      rw [card_known] at hcard
      simp only [kPend, kMaxInflight] at hcard ⊢
      omega
    obtain ⟨hinner, hknown, htoks⟩ := arrive_spec hroom hts
    obtain ⟨hinner', hknown', htoks'⟩ := arrive_all cs (hknown ▸ hcard) htoks
    exact ⟨hinner'.trans hinner, hknown'.trans hknown, htoks'⟩

theorem Holds.drain {B : Backend σ κ} {room : ℕ → Prop} (hB : B.Bag room R) (h : Holds R fb m) :
    Holds R (fb.drain B) m := by
  obtain ⟨mi, hR, hfst⟩ := h.inside
  obtain ⟨-, mi', hmi, hR'⟩ := hB.reap kMaxInflight hR
  have hts : (fb.fix.map Fixup.token : Multiset ℕ) =
      ((B.reap fb.inner kMaxInflight).1.map
        (fun c => c.token) : Multiset ℕ) + mi'.map Prod.fst := by
    rw [← hfst, hmi, Multiset.map_add, Multiset.map_coe, List.map_map]
    rfl
  have harrive := @arrive_all σ (B.reap fb.inner kMaxInflight).1
    { fb with inner := (B.reap fb.inner kMaxInflight).2 } (mi'.map Prod.fst) (h.bag ▸ h.room) hts
  obtain ⟨hinner, hknown, htoks⟩ := harrive
  exact ⟨⟨mi', hinner ▸ hR', htoks.symm⟩, h.bag.trans hknown.symm, h.room⟩

theorem give_spec : ∀ (n : ℕ) (fb : FaultBackend σ), (fb.give n).1.length ≤ n ∧
    fb.known = ((fb.give n).1.map Completion.key : Multiset InFlight) + (fb.give n).2.known ∧
      (fb.give n).2.inner = fb.inner ∧ (fb.give n).2.fix = fb.fix
  | 0, fb => ⟨Nat.le_refl 0, by simp [give], rfl, rfl⟩
  | n + 1, fb => by
    rw [give]
    split
    · exact ⟨Nat.zero_le _, by simp, rfl, rfl⟩
    · next i hi =>
      split
      · exact ⟨Nat.zero_le _, by simp, rfl, rfl⟩
      · next p hp =>
        obtain ⟨hlen, hknown, hinner, hfix⟩ := give_spec n { fb with pend := fb.pend.eraseIdx i }
        refine ⟨Nat.succ_le_succ hlen, ?_, hinner, hfix⟩
        obtain ⟨hlt, rfl⟩ := List.getElem?_eq_some_iff.mp hp
        have hpend : (fb.pend.map Pend.key : Multiset InFlight) =
            fb.pend[i].key ::ₘ ((fb.pend.eraseIdx i).map Pend.key : Multiset InFlight) := by
          rw [Multiset.cons_coe, Multiset.coe_eq_coe, ← List.map_cons]
          exact (List.getElem_cons_eraseIdx_perm hlt).symm.map Pend.key
        rw [List.map_cons, ← Multiset.cons_coe, Multiset.cons_add, ← hknown, known, known, hpend,
          Multiset.cons_add]
        rfl

theorem consume_rest (fb : FaultBackend σ) (token : ℕ) :
    (fb.consume token).2.inner = fb.inner ∧ (fb.consume token).2.fix = fb.fix ∧
      (fb.consume token).2.pend = fb.pend := by
  unfold consume
  split
  · exact ⟨rfl, rfl, rfl⟩
  · exact ⟨rfl, rfl, rfl⟩

/-- A rule that shortens a write or holds it back does not change its token. -/
theorem effective_token (req : WriteRequest) (r : Option Rule) :
    (effective req r).token = req.token := by
  unfold effective
  split <;> rfl

theorem Holds.congr {fb' : FaultBackend σ} (h : Holds R fb m) (hinner : fb'.inner = fb.inner)
    (hfix : fb'.fix = fb.fix) (hpend : fb'.pend = fb.pend) : Holds R fb' m := by
  obtain ⟨mi, hR, hfst⟩ := h.inside
  refine ⟨⟨mi, hinner ▸ hR, hfix ▸ hfst⟩, ?_, h.room⟩
  rw [h.bag, known, known, hfix, hpend]

theorem Holds.forward {B : Backend σ κ} (hB : B.Bag (fun n => n < kMaxInflight) R)
    (h : Holds R fb m) (hroom : m.card < kMaxInflight) (buf : ℕ) (req : WriteRequest)
    (r : Option Rule) : Holds R (fb.forward B buf req r).2
      (if (fb.forward B buf req r).1.isOk then req.key ::ₘ m else m) := by
  obtain ⟨mi, hR, hfst⟩ := h.inside
  have hmi : mi.card < kMaxInflight := by
    have hlen := congrArg Multiset.card hfst
    simp only [Multiset.card_map, Multiset.coe_card, List.length_map] at hlen
    have hknown := fb.card_known
    rw [← h.bag] at hknown
    omega
  have hsub := hB.submit buf (effective req r) hR hmi
  unfold FaultBackend.forward
  cases hok : (B.submit fb.inner buf (effective req r)).1.isOk with
  | true =>
    rw [if_pos hok] at hsub
    refine ⟨⟨_, hsub, ?_⟩, ?_, ?_⟩
    · rw [Multiset.map_cons, hfst]
      simp only [if_true, List.map_append, ← Multiset.coe_add, List.map_singleton,
        Multiset.coe_singleton]
      rw [Multiset.add_comm, Multiset.singleton_add]
      exact congrArg (fun t => t ::ₘ _) (effective_token req r)
    · simp only [if_true, known_fix, ← h.bag]
      rfl
    · simp only [if_true, Status.isOk_kOk, Multiset.card_cons]
      exact hroom
  | false =>
    have hno : ¬ (B.submit fb.inner buf (effective req r)).1.isOk = true := by simp [hok]
    rw [if_neg hno] at hsub
    simp only [Bool.false_eq_true, if_false, hok]
    exact ⟨⟨mi, hsub, hfst⟩, h.bag, h.room⟩

theorem Holds.submit {B : Backend σ κ} (hB : B.Bag (fun n => n < kMaxInflight) R)
    (h : Holds R fb m) (hroom : m.card < kMaxInflight) (buf : ℕ) (req : WriteRequest) :
    Holds R (submit B fb buf req).2
      (if (submit B fb buf req).1.isOk then req.key ::ₘ m else m) := by
  have hcard : m.card = fb.pend.length + fb.fix.length := h.bag ▸ fb.card_known
  have hfree : ¬ (kPend ≤ fb.pend.length ∨ kPend ≤ fb.fix.length) := by
    simp only [kPend, kMaxInflight] at hroom ⊢
    omega
  obtain ⟨hinner, hfix, hpend⟩ := fb.consume_rest req.token
  have h' := h.congr hinner hfix hpend
  have hlt : (fb.consume req.token).2.pend.length < kPend := by
    rw [hpend]
    omega
  rw [FaultBackend.submit, if_neg hfree]
  generalize fb.consume req.token = q at h' hlt
  obtain ⟨r, fb'⟩ := q
  split
  · -- the error is all that comes back
    next heq =>
    obtain ⟨rfl, rfl⟩ := Prod.mk.inj heq
    obtain ⟨mi, hR, hfst⟩ := h'.inside
    rw [push, if_pos hlt]
    refine ⟨⟨mi, hR, hfst⟩, ?_, ?_⟩
    · rw [known_push, ← h'.bag]
      rfl
    · simp only [Status.isOk_kOk, if_true, Multiset.card_cons]
      exact hroom
  · next heq =>
    obtain ⟨rfl, rfl⟩ := Prod.mk.inj heq
    exact h'.forward hB hroom buf req r

/-- Over a backend that keeps the contract the wrapper keeps it. -/
theorem bag {B : Backend σ κ} (hB : B.Bag (fun n => n < kMaxInflight) R) :
    (backend B).Bag (fun n => n < kMaxInflight) (Holds R) where
  submit buf req h hroom := h.submit hB hroom buf req
  reap {fb m} n h := by
    -- all completions of the inner backend are taken first; some are given out
    have hdrained := h.drain hB
    obtain ⟨mi, hR, hfst⟩ := hdrained.inside
    obtain ⟨hlen, hknown, hinner, hfix⟩ := give_spec n (fb.drain B)
    refine ⟨hlen, _, hdrained.bag.trans hknown, ⟨mi, hinner ▸ hR, hfix ▸ hfst⟩, rfl, ?_⟩
    refine (Multiset.card_le_card ?_).trans hdrained.room
    rw [hdrained.bag, hknown]
    exact Multiset.le_add_left _ _
  inflight {fb m} h := by
    obtain ⟨mi, hR, hfst⟩ := h.inside
    have hmi := congrArg Multiset.card hfst
    rw [Multiset.card_map, Multiset.coe_card, List.length_map] at hmi
    show B.inflight fb.inner + fb.pend.length = m.card
    rw [h.bag, card_known, hB.inflight hR, hmi, Nat.add_comm]
  own {fb m} k h := by
    cases k with
    | injectShortWrite | injectError | hold =>
      simp only [backend, turn, arm]
      split_ifs
      · exact h.congr rfl rfl rfl
      · exact h
    | releaseHeld =>
      obtain ⟨mi, hR, hfst⟩ := h.inside
      -- releasing changes a mark of the held writes, not their tokens or sizes
      have htoken : fb.releaseHeld.fix.map Fixup.token = fb.fix.map Fixup.token := by
        simp [releaseHeld, Function.comp_def]
      have hfix : fb.releaseHeld.fix.map Fixup.key = fb.fix.map Fixup.key := by
        simp [releaseHeld, Function.comp_def, Fixup.key]
      have hpend : fb.releaseHeld.pend.map Pend.key = fb.pend.map Pend.key := by
        simp [releaseHeld, Function.comp_def, Pend.key]
      refine ⟨⟨mi, hR, ?_⟩, ?_, h.room⟩
      · rw [hfst]
        exact congrArg _ htoken.symm
      · rw [h.bag, known, known]
        exact congr (congrArg _ (congrArg _ hpend.symm)) (congrArg _ hfix.symm)
    | setDelivery | clearRules => exact h.congr rfl rfl rfl
    | inner k =>
      obtain ⟨mi, hR, hfst⟩ := h.inside
      exact ⟨⟨mi, hB.own k hR, hfst⟩, h.bag, h.room⟩

/-- **The faults are scripts.** Over any backend that keeps the contract, whatever rules are armed,
held and released, every run of calls with at most `kMaxInflight` writes in flight is answered as
the scripted backend answers it, under some script. -/
theorem fault_scripted {B : Backend σ κ} (hB : B.Bag (fun n => n < kMaxInflight) R) {inner : σ}
    (hR : R inner 0) {ops : List (BackendOp (Knob κ))}
    (hasked : (backendContract (Knob κ) (fun n => n < kMaxInflight)).Asked 0 ops
      (runOps (backend B).step (start inner) ops).1) :
    ∃ sc, (runOps (backend B).step (start inner) ops).1 =
      (runOps (IoBackend.scripted (Knob κ)).step (.start sc) ops).1 :=
  (bag hB).scripted ⟨⟨0, hR, rfl⟩, rfl, Nat.zero_le _⟩ hasked

/-- A file whose first write is of 512 bytes. -/
def shortened : PwriteBackend :=
  { PwriteBackend.oneFile with pwrite := fun n => if n = 0 then 512 else 4096 }

/-- An error, a short write and a completion held back until it is released. -/
def threeFaults : List (BackendOp (Knob PwriteBackend.Order)) :=
  [.own (.injectError 1 5), .own (.injectShortWrite 2 512), .own (.hold 3),
    .submit 4096 ⟨[], 0, 1, 4096, 0, 0⟩, .submit 4096 ⟨[], 4096, 2, 8192, 0, 0⟩,
    .submit 4096 ⟨[], 12288, 3, 4096, 0, 0⟩, .reap 32, .inflight, .own .releaseHeld, .reap 32]

theorem fault_scripted_three :
    (runOps (backend PwriteBackend.backend).step (start shortened) threeFaults).1 =
      [.nothing, .nothing, .nothing, .status .kOk, .status .kOk, .status .kOk,
        .completions [⟨1, -5, 4096⟩, ⟨2, 512, 8192⟩], .count 1, .nothing,
        .completions [⟨3, 4096, 4096⟩]] ∧
    ∃ sc, (runOps (backend PwriteBackend.backend).step (start shortened) threeFaults).1 =
      (runOps (IoBackend.scripted _).step (.start sc) threeFaults).1 := by
  have hrun : (runOps (backend PwriteBackend.backend).step (start shortened)
      threeFaults).1 = [.nothing, .nothing, .nothing, .status .kOk, .status .kOk, .status .kOk,
        .completions [⟨1, -5, 4096⟩, ⟨2, 512, 8192⟩], .count 1, .nothing,
        .completions [⟨3, 4096, 4096⟩]] := rfl
  refine ⟨hrun, fault_scripted (PwriteBackend.bag.mono fun _ _ => trivial)
    ⟨rfl, by decide, by decide, rfl⟩ ?_⟩
  rw [hrun]
  exact ⟨trivial, trivial, trivial, (by decide : 0 < 32), (by decide : 1 < 32),
    (by decide : 2 < 32), trivial, trivial, trivial, trivial, trivial⟩

end FaultBackend

end MotorRv
