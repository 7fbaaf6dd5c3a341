import MotorRv.Core.ExactlyOnce
import MotorRv.Core.Outputs
import MotorRv.Core.Records
import MotorRv.Wal.RoundTrip

/-!
# Nothing leaves before it is durable

An entry of the outbox carries the LSN of the record it comes from, and is released once the log
has this LSN on disk. The released entries are the first ones staged, in order; a crash at any
later moment still finds the records they come from. After a fatal answer of `apply` the outbox is
frozen and nothing more leaves.

`Gate` accounts for the outbox as `Tally` does for the inbox: what was staged is what was released
followed by what is pending, each entry with the LSN of the record whose event staged it. The
comparison with the durable LSN is made after the harvest of the same poll, and by the result on the
durable LSN everything up to it has landed. That a crash, now or at any later moment, leaves the
records of the released entries readable is the result on torn writes.

A backend may be slow, fail, and report in any order; that it reports no write as good which has not
landed is in the crash model. The checksum has to be trusted on the file that the crash leaves.
-/

namespace MotorRv

open Lib SegmentReader

/-- The answer of `apply` was fatal. -/
def Turn.stops : Turn → Bool
  | .stopped _ _ _ => true
  | _ => false

/-- The entries released in a run, in order. -/
def releasedOf (rs : List Polled) : List OutboxEntry := rs.flatMap Polled.released

namespace Partition

/-- What a turn staged, with the record it comes from. -/
def turnOutputs (p : Partition) (t : Turn) (p' : Partition) : List (LogRecord × OutboxEntry) :=
  match t.took with
  | some (_, ev, _) =>
    (p'.saida.pendingEntries.drop p.saida.pendingEntries.length).map fun x => (ev, x)
  | none => []

/-- What the turns of `drain` staged. -/
def drainOutputs : ℕ → Partition → List (LogRecord × OutboxEntry)
  | 0, _ => []
  | n + 1, p =>
    match p.turn with
    | .ok (t, p') => p.turnOutputs t p' ++ if t.consumes then drainOutputs n p' else []
    | .error _ => []

def pollOutputs (p : Partition) : List (LogRecord × OutboxEntry) :=
  if p.parado then [] else p.drainOutputs kBatch

/-- What a run staged, in order. -/
def outputs : Partition → List PartitionInput → List (LogRecord × OutboxEntry)
  | _, [] => []
  | p, .arrive f :: is => (p.arrive f).outputs is
  | p, .poll nowNs :: is =>
    p.pollOutputs ++
      match p.poll nowNs with
      | .ok (_, p') => p'.outputs is
      | .error _ => []

/-! ### The gate -/

/-- How what was staged and what was released account for the outbox. -/
structure Gate (w₀ : WalT) (ts : List Turn) (outs : List (LogRecord × OutboxEntry))
    (released : List OutboxEntry) (p : Partition) : Prop where
  log : WalT.Moves w₀ (records ts) p.diario
  head_lt : p.saida.head < p.saida.slots.length
  count_le : p.saida.count ≤ p.saida.slots.length
  queue : outs.map Prod.snd = released ++ p.saida.pendingEntries
  origin : ∀ x ∈ outs, x.1 ∈ records ts ∧ x.2.lsn = x.1.lsn
  durable : ∀ x ∈ released, x.lsn ≤ p.diario.durableLsn
  stopped : ∀ t ∈ ts, t.stops = true → p.parado = true
  frozen : p.parado = true → p.saida.frozen = true

variable {p p' : Partition} {w₀ : WalT} {ts : List Turn} {outs : List (LogRecord × OutboxEntry)}
  {released : List OutboxEntry}

theorem Gate.start {estado : PartitionState} {entrada : Inbox} {saida : Outbox}
    (hhead : saida.head < saida.slots.length) (hcount : saida.count = 0) :
    Gate w₀ [] [] [] (start estado w₀ entrada saida) where
  log := .refl w₀
  head_lt := hhead
  count_le := hcount.trans_le (Nat.zero_le _)
  queue := (Outbox.pendingEntries_of_count_zero hcount).symm
  origin := nofun
  durable := nofun
  stopped := nofun
  frozen := nofun

section Steps

variable {done₀ queue₀ : List WriteRequest} (hw₀ : Fifo w₀ done₀ queue₀)
include hw₀

/-- What was durable stays durable. -/
theorem Gate.durable_le (h : Gate w₀ ts outs released p) {rs : List LogRecord} {w : WalT}
    (hm : WalT.Moves p.diario rs w) : ∀ x ∈ released, x.lsn ≤ w.durableLsn := by
  obtain ⟨fin, rest, hp⟩ := hw₀.moves h.log
  obtain ⟨fin', rest', hw⟩ := hp.moves hm
  intro x hx
  exact (h.durable x hx).trans (hp.durable_mono hw)

/-- A turn that takes no frame stages nothing. -/
theorem Gate.skip (h : Gate w₀ ts outs released p) {t : Turn} {w : WalT}
    (hm : WalT.Moves p.diario [] w) (htook : t.took = none) :
    Gate w₀ (ts ++ [t]) outs released { p with diario := w } := by
  have hrecords : records (ts ++ [t]) = records ts := by
    rw [records_append]
    simp [records, took, htook]
  refine ⟨?_, h.head_lt, h.count_le, h.queue, ?_, h.durable_le hw₀ hm, ?_, h.frozen⟩
  · rw [hrecords, ← List.append_nil (records ts)]
    exact h.log.trans hm
  · rw [hrecords]
    exact h.origin
  · intro t' ht' hstops
    obtain ht' | ht' := List.mem_append.mp ht'
    · exact h.stopped t' ht' hstops
    · obtain rfl := List.mem_singleton.mp ht'
      cases t' with
      | stopped => cases htook
      | _ => cases hstops

/-- A record that is applied stages its own entries, behind the others. -/
theorem Gate.take (h : Gate w₀ ts outs released p) {t : Turn} {f : IngressFrame} {ev : EventView}
    {st : Status} {e : Engine} (hm : WalT.Moves p.diario [ev] p'.diario)
    (happly : apply ⟨p.estado, some p.saida⟩ ev = .ok (st, e)) (htook : t.took = some (f, ev, st))
    (hsaida : p'.saida = e.outbox.getD p.saida ∨ p'.saida = (e.outbox.getD p.saida).freeze)
    (hstopped : ∀ t' ∈ ts ++ [t], t'.stops = true → p'.parado = true)
    (hfrozen : p'.parado = true → p'.saida.frozen = true) :
    Gate w₀ (ts ++ [t]) (outs ++ p.turnOutputs t p') released p' := by
  obtain ⟨o, es, ho, hgrows⟩ := grows_of_apply happly
  rw [ho, Option.getD_some] at hsaida
  -- freezing leaves the ring as it is
  have hring : p'.saida.pendingEntries = o.pendingEntries ∧ p'.saida.head = o.head ∧
      p'.saida.slots = o.slots ∧ p'.saida.count = o.count := by
    obtain hs | hs := hsaida
    · rw [hs]
      exact ⟨rfl, rfl, rfl, rfl⟩
    · rw [hs]
      exact ⟨rfl, rfl, rfl, rfl⟩
  obtain ⟨hpend, hhead, hslots, hcount⟩ := hring
  have hrecords : records (ts ++ [t]) = records ts ++ [ev] := by
    rw [records_append]
    simp [records, took, htook]
  have houts : p.turnOutputs t p' = es.map fun x => (ev, x) := by
    unfold turnOutputs
    rw [htook]
    dsimp only
    rw [hpend, hgrows.pending, List.drop_left]
  rw [houts]
  refine ⟨?_, ?_, ?_, ?_, ?_, h.durable_le hw₀ hm, hstopped, hfrozen⟩
  · rw [hrecords]
    exact h.log.trans hm
  · rw [hhead, hslots, hgrows.head_eq, hgrows.slots_eq]
    exact h.head_lt
  · rw [hcount, hslots]
    exact hgrows.count_le h.count_le
  · rw [List.map_append, h.queue, hpend, hgrows.pending, List.map_map, List.append_assoc]
    exact congrArg (fun l => released ++ (p.saida.pendingEntries ++ l)) (List.map_id es)
  · intro x hx
    rw [hrecords]
    obtain hx | hx := List.mem_append.mp hx
    · exact ⟨List.mem_append_left _ (h.origin x hx).1, (h.origin x hx).2⟩
    · obtain ⟨y, hy, rfl⟩ := List.mem_map.mp hx
      exact ⟨List.mem_append_right _ List.mem_cons_self, hgrows.lsn_eq y hy⟩

theorem Gate.turn (h : Gate w₀ ts outs released p) (hrun : p.parado = false) {t : Turn}
    (ht : p.turn = .ok (t, p')) :
    Gate w₀ (ts ++ [t]) (outs ++ p.turnOutputs t p') released p' ∧
      (t.consumes = true → p'.parado = false) := by
  have hnone : ∀ t' ∈ ts, t'.stops = true → False := fun t' ht' hs => by
    simp [h.stopped t' ht' hs] at hrun
  cases turn_cases ht with
  | idle hempty =>
    refine ⟨?_, nofun⟩
    simpa [turnOutputs, Turn.took] using h.skip hw₀ (.refl p.diario) (t := .idle) rfl
  | outboxFull =>
    refine ⟨?_, nofun⟩
    simpa [turnOutputs, Turn.took] using h.skip hw₀ (.refl p.diario) (t := .outboxFull) rfl
  | @walFull st w hlog =>
    refine ⟨?_, nofun⟩
    simpa [turnOutputs, Turn.took] using h.skip hw₀ hlog (t := .walFull st) rfl
  | @consumed f rest w st e hframe hlog happly hst =>
    refine ⟨h.take hw₀ hlog happly rfl (.inl rfl) ?_ ?_, fun _ => hrun⟩
    · intro t' ht' hs
      obtain ht' | ht' := List.mem_append.mp ht'
      · exact (hnone t' ht' hs).elim
      · obtain rfl := List.mem_singleton.mp ht'
        cases hs
    · exact fun hp => absurd hp (by simp [hrun])
  | @stopped f rest w st e hframe hlog happly hst =>
    exact ⟨h.take hw₀ hlog happly rfl (.inr rfl) (fun _ _ _ => rfl) fun _ => rfl, nofun⟩

theorem Gate.drain {n : ℕ} : ∀ {p p' : Partition} {ts ts' : List Turn}
    {outs : List (LogRecord × OutboxEntry)}, Gate w₀ ts outs released p → p.parado = false →
      p.drain n = .ok (ts', p') → Gate w₀ (ts ++ ts') (outs ++ p.drainOutputs n) released p' := by
  induction n with
  | zero =>
    intro p p' ts ts' outs h _ hdrain
    cases hdrain
    simpa [drainOutputs] using h
  | succ n ih =>
    intro p p' ts ts' outs h hrun hdrain
    obtain ⟨⟨t, q⟩, ht, hdrain⟩ := except_bind_eq_ok.mp hdrain
    obtain ⟨hq, hrun'⟩ := h.turn hw₀ hrun ht
    unfold drainOutputs
    rw [ht]
    dsimp only at hdrain ⊢
    split_ifs at hdrain ⊢ with hconsumes
    · obtain ⟨⟨ts'', q'⟩, hrest, hdrain⟩ := except_bind_eq_ok.mp hdrain
      cases hdrain
      have := ih hq (hrun' hconsumes) hrest
      rwa [List.append_assoc, List.append_assoc] at this
    · cases hdrain
      rwa [List.append_nil]

/-- What is released has an LSN that is durable, and comes first of what is pending. -/
theorem Gate.settle (h : Gate w₀ ts outs released p) (nowNs : ℕ) :
    Gate w₀ ts outs (released ++ (p.settle nowNs).1) (p.settle nowNs).2 ∧
      (p.parado = true → (p.settle nowNs).1 = []) := by
  have hm : WalT.Moves p.diario ([] ++ []) (p.settle nowNs).2.diario :=
    (p.diario.step_moves (.maybeSubmit nowNs)).trans
      ((p.diario.maybeSubmit nowNs).2.step_moves .reap)
  have hreleased : (p.settle nowNs).1 =
      p.saida.pendingEntries.take (p.saida.ready (p.settle nowNs).2.diario.durableLsn) := rfl
  refine ⟨⟨?_, ?_, ?_, ?_, h.origin, ?_, h.stopped, h.frozen⟩, fun hparado => ?_⟩
  · have := h.log.trans hm
    rwa [List.append_nil, List.append_nil] at this
  · exact Nat.mod_lt _ (Nat.zero_lt_of_lt h.head_lt)
  · exact (Nat.sub_le _ _).trans h.count_le
  · rw [h.queue, hreleased, List.append_assoc]
    refine congrArg (released ++ ·) ?_
    have hcommit := Outbox.pendingEntries_commit h.count_le
      (p.saida.ready (p.settle nowNs).2.diario.durableLsn)
    exact (List.take_append_drop _ _).symm.trans (congrArg _ hcommit.symm)
  · intro x hx
    obtain hx | hx := List.mem_append.mp hx
    · exact h.durable_le hw₀ hm x hx
    · rw [hreleased, Outbox.ready] at hx
      split_ifs at hx
      · cases hx
      · have hprefix := List.prefix_iff_eq_take.mp
          (List.takeWhile_prefix (l := p.saida.pendingEntries)
          fun x => decide (x.lsn ≤ (p.settle nowNs).2.diario.durableLsn))
        rw [← hprefix] at hx
        have hle := List.mem_takeWhile_imp hx
        exact of_decide_eq_true hle
  · rw [hreleased, Outbox.ready, h.frozen hparado]
    rfl

theorem Gate.poll {r : Polled} {nowNs : ℕ} (h : Gate w₀ ts outs released p)
    (hpoll : p.poll nowNs = .ok (r, p')) :
    Gate w₀ (ts ++ r.turns) (outs ++ p.pollOutputs) (released ++ r.released) p' ∧
      (p'.parado = true → r.released = []) := by
  obtain ⟨⟨turns, q⟩, hturns, hpoll⟩ := except_bind_eq_ok.mp hpoll
  cases hpoll
  have hq : Gate w₀ (ts ++ turns) (outs ++ p.pollOutputs) released q := by
    unfold Partition.turns at hturns
    unfold pollOutputs
    split_ifs at hturns ⊢ with hparado
    · cases hturns
      simpa using h
    · exact h.drain hw₀ (by simpa using hparado) hturns
  exact hq.settle hw₀ nowNs

theorem Gate.exec {is : List PartitionInput} : ∀ {p p' : Partition} {ts : List Turn}
    {outs : List (LogRecord × OutboxEntry)} {released : List OutboxEntry} {rs : List Polled},
      Gate w₀ ts outs released p → p.exec is = .ok (rs, p') →
      Gate w₀ (ts ++ turnsOf rs) (outs ++ p.outputs is) (released ++ releasedOf rs) p' := by
  induction is with
  | nil =>
    intro p p' ts outs released rs h hexec
    cases hexec
    simpa [turnsOf, releasedOf, outputs] using h
  | cons i is ih =>
    intro p p' ts outs released rs h hexec
    cases i with
    | arrive f =>
      refine ih ?_ hexec
      unfold Partition.arrive
      split_ifs
      · exact ⟨h.log, h.head_lt, h.count_le, h.queue, h.origin, h.durable, h.stopped, h.frozen⟩
      · exact h
    | poll nowNs =>
      obtain ⟨⟨r, q⟩, hpoll, hexec⟩ := except_bind_eq_ok.mp hexec
      obtain ⟨⟨rs', q'⟩, hrest, hexec⟩ := except_bind_eq_ok.mp hexec
      cases hexec
      have hp' := ih (h.poll hw₀ hpoll).1 hrest
      rw [outputs, hpoll]
      rwa [List.append_assoc, List.append_assoc, List.append_assoc] at hp'

end Steps

/-- **Nothing is externalised before it is durable.** In every run of a partition over a freshly
created segment, whatever arrives, whatever the clock says and whatever the backend answers: what is
released is what was staged first, in order, each entry once and with the LSN of its record; the
LSNs released by a `poll` are durable then; after a fatal answer nothing is released; and from
whatever a crash leaves of the file, then or later, the reader returns the record of every released
entry. -/
theorem externalised_is_durable (sc : Script) (opts : WalOptions) (drawn : UInt32)
    (estado : PartitionState) (entrada : Inbox) {arena arena' : Arena}
    {slots payloadBytes : UInt32} {saida : Outbox}
    (hinit : Outbox.init arena slots payloadBytes = .ok (some saida, arena'))
    (is : List PartitionInput) {rs : List Polled} {p : Partition}
    (hrun : (start estado ((WalT.fresh sc).openCreate opts drawn).1 entrada saida).exec is =
      .ok (rs, p)) :
    let outs := (start estado ((WalT.fresh sc).openCreate opts drawn).1 entrada saida).outputs is
    let released := releasedOf rs
    outs.map Prod.snd = released ++ p.saida.pendingEntries ∧
    (∀ x ∈ outs, x.1 ∈ records (turnsOf rs) ∧ x.2.lsn = x.1.lsn) ∧
    (∀ nowNs r p', p.poll nowNs = .ok (r, p') →
      (∀ x ∈ r.released, x.lsn ≤ p'.diario.durableLsn) ∧
      ((∃ t ∈ turnsOf rs ++ r.turns, t.stops = true) → r.released = [])) ∧
    ∀ w more z file, WalT.Moves p.diario more w → kSegmentHdrBytes + z ≤ kMaxOff →
      Crash (effectiveBlock opts.blockSize.toNat) (opts.created drawn z) w.backend file →
      CrcSound (WalT.epochNext drawn) file
        (w.WrittenAt (records (turnsOf rs) ++ more) (WalT.epochNext drawn)) →
      ∃ r, SegmentReader.open file 0 = (.kOk, r) ∧
        ∀ x ∈ outs.take released.length, x.1 ∈ r.readAll.1 := by
  intro outs released
  have hw₀ := Fifo.ready sc opts (.ofHdr (opts.hdr (WalT.epochNext drawn))) kSegmentHdrBytes 0
  have hsaida := Outbox.fresh_of_init hinit
  have hstart : Gate ((WalT.fresh sc).openCreate opts drawn).1 [] [] []
      (start estado ((WalT.fresh sc).openCreate opts drawn).1 entrada saida) :=
    .start hsaida.1 hsaida.2
  have h := hstart.exec hw₀ hrun
  rw [List.nil_append, List.nil_append, List.nil_append] at h
  refine ⟨h.queue, h.origin, fun nowNs r p' hpoll => ?_, fun w more z file hm hz hcrash hcrc => ?_⟩
  · obtain ⟨hp', hnone⟩ := h.poll hw₀ hpoll
    refine ⟨fun x hx => hp'.durable x (List.mem_append_right _ hx), ?_⟩
    rintro ⟨t, ht, hstops⟩
    exact hnone (hp'.stopped t ht hstops)
  · obtain ⟨r, hopen, -, hall⟩ := mem_readAll_of_durable (h.log.trans hm) hz hcrash hcrc
    refine ⟨r, hopen, fun x hx => ?_⟩
    obtain ⟨hmem, hlsn⟩ := h.origin x (List.mem_of_mem_take hx)
    -- outputs are released in order: the first ones are the released ones
    have hx' : x.2 ∈ released := by
      have htake : (outs.map Prod.snd).take released.length = released := by
        rw [h.queue]
        exact List.take_left
      rw [← List.map_take] at htake
      exact htake ▸ List.mem_map_of_mem hx
    refine hall x.1 (List.mem_append_left _ hmem) ?_
    rw [← hlsn]
    exact h.durable_le hw₀ hm x.2 hx'

/-- An instrument, a day and a purchase arrive, and one `poll`. -/
def purchaseFrames : List PartitionInput := purchaseArrives ++ [.poll 0]

/-- The records of `purchaseFrames`. -/
def purchaseRecords : List LogRecord :=
  [(Event.closingPriceSet quoted).record 1, (Event.dayOpened firstDay).record 2,
    (Event.tradeExecuted boughtOne).record 3]

/-- A backend that completes a block of 512 bytes at each harvest. -/
def blockAtATime : Script := ⟨fun _ => .kOk, fun _ => [(0, 512)]⟩

/-- A partition over a new log, with such a backend. -/
def overBlocks (saida : Outbox) (s₀ : PartitionState) : Partition :=
  start s₀ ((WalT.fresh blockAtATime).openCreate ⟨0, 0, 0, 512⟩ 7).1 .empty saida

/-- A purchase: its output leaves in the `poll` that harvests its group, and the file has its
record. -/
theorem externalised_is_durable_purchase : ∃ s₀ arena₀ saida arena',
    PartitionState.blank.init ⟨2 ^ 16, 0, false, false⟩ 1 ⟨2, 2, 2, 2, 2, 2, 2, 2, 60⟩ =
      .ok (true, s₀, arena₀) ∧
    Outbox.init arena₀ 16 256 = .ok (some saida, arena') ∧ ∃ rs p,
    (overBlocks saida s₀).exec purchaseFrames = .ok (rs, p) ∧
    (releasedOf rs).map OutboxEntry.lsn = [3] ∧
    ∃ file r, Crash 512 (WalOptions.created ⟨0, 0, 0, 512⟩ 7 0) p.diario.backend file ∧
      SegmentReader.open file 0 = (.kOk, r) ∧
        (Event.tradeExecuted boughtOne).record 3 ∈ r.readAll.1 := by
  obtain ⟨s₀, arena₀, rs, p, hinit, hrun, hchecked⟩ := @exists_of_checked
    ⟨2, 2, 2, 2, 2, 2, 2, 2, 60⟩ (overBlocks (.fresh 16 256)) purchaseFrames
    (fun s₀ arena₀ rs p => decide ((arena₀.allocAll [(256, 8), (256, 1)]).1 = true ∧
      (releasedOf rs).map OutboxEntry.lsn = [3] ∧
      p.diario.backend.accepted.map WriteRequest.token = [3] ∧ p.diario.segOffset = 4608 ∧
      records (turnsOf rs) = purchaseRecords ∧
      ((overBlocks (.fresh 16 256) s₀).outputs purchaseFrames).map Prod.fst =
        [(Event.tradeExecuted boughtOne).record 3])) (by decide +kernel)
  obtain ⟨hroom, hreleased, htokens, hoff, hrecords, houts⟩ := of_decide_eq_true hchecked
  have hout : Outbox.init arena₀ 16 256 =
      .ok (some (.fresh 16 256), (arena₀.allocAll [(256, 8), (256, 1)]).2) :=
    Outbox.init_of_room rfl hroom
  -- the one group of the log, which landed
  have hw₀ := Fifo.ready blockAtATime ⟨0, 0, 0, 512⟩ (.ofHdr (WalOptions.hdr ⟨0, 0, 0, 512⟩ 7))
    kSegmentHdrBytes 0
  have hsaida := Outbox.fresh_of_init hout
  have hgate : Gate ((WalT.fresh blockAtATime).openCreate ⟨0, 0, 0, 512⟩ 7).1 [] [] []
      (overBlocks (.fresh 16 256) s₀) := .start hsaida.1 hsaida.2
  have hmoves : WalT.Moves ((WalT.fresh blockAtATime).openCreate ⟨0, 0, 0, 512⟩ 7).1
      (records (turnsOf rs)) p.diario := (hgate.exec hw₀ hrun).log
  rw [hrecords] at hmoves
  obtain ⟨groups, cur, hcontent⟩ := Created.moves hmoves
  obtain rfl := hcontent.groups_eq [purchaseRecords] [] rfl htokens
  have hend : p.diario.segOffset ≤ kMaxOff := hoff ▸ by decide
  have hcrash := hcontent.crash (z := 0) hend
  have hcrc := hcontent.crcSound hend (by decide) 64
    (List.forall_mem_singleton.mpr (by decide +kernel))
  obtain ⟨-, -, -, hcut⟩ := externalised_is_durable _ _ _ _ _ hout _ hrun
  obtain ⟨r, hopen, hall⟩ := hcut _ [] 0 _ (.refl _) (by decide) hcrash
    (by rw [List.append_nil, hrecords]; exact hcrc)
  refine ⟨s₀, arena₀, _, _, hinit, hout, rs, p, hrun, hreleased, _, r, hcrash, hopen, ?_⟩
  replace hall : ∀ x ∈ ((overBlocks (.fresh 16 256) s₀).outputs purchaseFrames).take
      (releasedOf rs).length, x.1 ∈ r.readAll.1 := hall
  generalize (overBlocks _ s₀).outputs _ = xs at hall houts
  obtain ⟨x, rfl, hx⟩ := List.map_eq_singleton_iff.mp houts
  rw [← hx]
  refine hall x ?_
  have hlen : (releasedOf rs).length = 1 := by
    rw [← List.length_map, hreleased]
    rfl
  rw [hlen]
  exact List.mem_cons_self

end Partition

end MotorRv
