import MotorRv.Edge.Observability

/-!
# Pages cut off by a small buffer

A page that does not fit is not cut off where it stops fitting: each later piece that is short
enough for what is left is still written. So a page is a clean prefix of itself only for the buffers
that some first pieces fill to the last byte — besides those that hold it whole and, for the status
object, two sizes at its very end.

The proof goes from pieces to fragments, which are what `append` is called with: a call of the
writer hands over one fragment, or two for a hexadecimal number, and the library on bounded writers
says when something is written after the first drop. For that it has to be known that no fragment is
empty (`Full`, which is pushed through the lists of pieces by its own small simp set) and how long
the last ones are (`suffix_prometheus`, `suffix_json`).

`cleanPrefix_iff` is an equivalence for every collector and every size of the buffer. That the exact
sizes depend on the collector is its point: whether a page is cut off cleanly is, for most sizes, a
matter of luck.
-/

namespace MotorRv

open Lib

namespace Edge

/-- The fragments that a call hands to `append`. -/
def Piece.fragments : Piece → List Bytes
  | .text s => [ascii s]
  | .u64 v => [digits v]
  | .hex64 v => [ascii "0x", hex16 v]
  | .double v => [ascii v]

/-- The fragments of a page. -/
def fragments (pieces : List Piece) : List Bytes := pieces.flatMap Piece.fragments

/-- The length of the whole page. -/
def size (pieces : List Piece) : ℕ := BoundedWriter.total (fragments pieces)

/-- Some first fragments of the page fill the buffer. -/
def FilledBy (pieces : List Piece) (n : ℕ) : Prop := BoundedWriter.Boundary (fragments pieces) n

/-- What a truncated page should be: nothing is written after the first drop, and the bytes are the
first of those that every large enough buffer receives. -/
def CleanPrefix (render : ℕ → FastBufferWriter) (n : ℕ) : Prop :=
  (render n).late = false ∧
    ∃ whole large, (∀ big, large ≤ big → (render big).out = whole) ∧ (render n).out <+: whole

/-- A call of the writer is its fragments in order: where `0x` does not fit, neither do the
digits. -/
theorem call_eq (w : FastBufferWriter) (p : Piece) : w.call p = w.putAll p.fragments := by
  cases p with
  | text s => rfl
  | u64 v => rfl
  | double v => rfl
  | hex64 v =>
    have hx : (ascii "0x").length = 2 := by decide
    rw [FastBufferWriter.call, FastBufferWriter.appendHex64, FastBufferWriter.append]
    by_cases hroom : (ascii "0x").length ≤ w.room
    · rw [decide_eq_true hroom]
      rfl
    · have hlt : w.room < (ascii "0x").length := Nat.lt_of_not_le hroom
      have hhex : w.room < (hex16 v).length := by
        rw [hex16, List.length_map, List.length_range]
        omega
      rw [decide_eq_false hroom]
      simp only [Piece.fragments, BoundedWriter.putAll_cons, BoundedWriter.putAll_nil]
      rw [BoundedWriter.put_of_lt hlt]
      exact (BoundedWriter.put_of_lt (w := { w with dropped := true }) hhex).symm

/-- A text is written as its fragments, one after the other. -/
theorem foldl_call (pieces : List Piece) (w : FastBufferWriter) :
    pieces.foldl FastBufferWriter.call w = w.putAll (fragments pieces) := by
  induction pieces generalizing w with
  | nil => rfl
  | cons p ps ih =>
    rw [List.foldl_cons, ih, call_eq, fragments, fragments, List.flatMap_cons,
      BoundedWriter.putAll_append]

/-! ### No fragment is empty -/

/-- Every fragment of the page has at least one byte. -/
def Full (pieces : List Piece) : Prop := ∀ f ∈ fragments pieces, f ≠ []

/-- A text has a character just when its bytes are not none. -/
theorem ascii_ne_nil_iff {s : String} : ascii s ≠ [] ↔ s ≠ "" := by
  rw [ascii, ne_eq, List.map_eq_nil_iff, String.toList_eq_nil_iff]

section Full

variable {ps qs : List Piece}

@[simp]
theorem full_nil : Full [] := by simp [Full, fragments]

/-- Pieces one after the other are full when both parts are. -/
@[simp]
theorem full_append_iff : Full (ps ++ qs) ↔ Full ps ∧ Full qs := by
  rw [Full, fragments, List.flatMap_append, List.forall_mem_append]
  rfl

theorem full_cons_iff {p : Piece} : Full (p :: ps) ↔ (∀ f ∈ p.fragments, f ≠ []) ∧ Full ps := by
  rw [Full, fragments, List.flatMap_cons, List.forall_mem_append]
  rfl

/-- A literal is full when it is not empty. -/
@[simp]
theorem full_text_iff {s : String} : Full (.text s :: ps) ↔ s ≠ "" ∧ Full ps := by
  rw [full_cons_iff, Piece.fragments, List.forall_mem_singleton, ascii_ne_nil_iff]

@[simp]
theorem full_double_iff {s : String} : Full (.double s :: ps) ↔ s ≠ "" ∧ Full ps := by
  rw [full_cons_iff, Piece.fragments, List.forall_mem_singleton, ascii_ne_nil_iff]

/-- A number has at least one digit. -/
@[simp]
theorem full_u64_iff {v : UInt64} : Full (.u64 v :: ps) ↔ Full ps := by
  rw [full_cons_iff, and_iff_right]
  simp [Piece.fragments, digits, Nat.toDigits_ne_nil]

/-- A hexadecimal number has its prefix and its digits. -/
@[simp]
theorem full_hex64_iff {v : UInt64} : Full (.hex64 v :: ps) ↔ Full ps := by
  rw [full_cons_iff, and_iff_right]
  simp [Piece.fragments, hex16, ascii]

/-- Pieces that are repeated for each element are full when they are so for each. -/
@[simp]
theorem full_flatMap_iff {β : Type*} {l : List β} {g : β → List Piece} :
    Full (l.flatMap g) ↔ ∀ x ∈ l, Full (g x) := by
  induction l with
  | nil => simp
  | cons x xs ih => rw [List.flatMap_cons, full_append_iff, List.forall_mem_cons, ih]

end Full

/-- Every endpoint has a name. -/
@[simp]
theorem endpointName_ne (ep : Endpoint) : endpointName ep ≠ "" := by
  cases ep <;> decide

/-- Every rejection has a label. -/
@[simp]
theorem cleanReasonLabel_ne (code : ℕ) : cleanReasonLabel code ≠ "" := by
  unfold cleanReasonLabel
  split <;> decide

/-- The text of a ratio is never empty. -/
@[simp]
theorem ratioText_ne (F : Floats) (ok err : UInt64) : AuditMetrics.ratioText F ok err ≠ "" := by
  rw [AuditMetrics.ratioText]
  split_ifs
  · decide
  · exact F.ratio_ne_empty _ _

/-- A metric of the partitions is full: its help, its type and its name are literals. -/
theorem full_perPartition (c : ObservabilityCollector) {help type name : String}
    (value : PartitionMetricsSnapshot → UInt64) (hh : help ≠ "") (ht : type ≠ "") (hn : name ≠ "") :
    Full (perPartition c help type name value) := by
  simp [perPartition, heading, partitionLine, hh, ht, hn]

theorem full_rejections (c : ObservabilityCollector) : Full (rejections c) := by
  rw [rejections, full_append_iff]
  refine ⟨by simp [heading], ?_⟩
  simp only [full_flatMap_iff]
  intro p hp code hcode
  split_ifs <;> simp

theorem full_eventsApplied (c : ObservabilityCollector) : Full (eventsApplied c) := by
  simp [eventsApplied, heading, partitionLine]

theorem full_commitLatency (c : ObservabilityCollector) : Full (commitLatency c) := by
  simp [commitLatency, heading, partitionLine]

theorem full_ingressMetrics (c : ObservabilityCollector) : Full (ingressMetrics c) := by
  simp [ingressMetrics, heading]

theorem full_slaAvailability (F : Floats) (c : ObservabilityCollector) :
    Full (slaAvailability F c) := by
  simp [slaAvailability, heading, AuditMetrics.availabilityRatio]

theorem full_slaRequests (c : ObservabilityCollector) : Full (slaRequests c) := by
  simp [slaRequests, heading, endpointLine]

theorem full_slaP95Request (F : Floats) (c : ObservabilityCollector) :
    Full (slaP95Request F c) := by
  simp [slaP95Request, heading, endpointLine]

theorem full_slaP95Handshake (F : Floats) (c : ObservabilityCollector) :
    Full (slaP95Handshake F c) := by
  simp [slaP95Handshake, heading, endpointLine]

/-- No piece of the Prometheus text is empty. -/
theorem full_prometheus (F : Floats) (c : ObservabilityCollector) :
    Full (prometheusPieces F c) := by
  unfold prometheusPieces
  simp only [full_append_iff, full_eventsApplied, full_rejections, full_commitLatency,
    full_ingressMetrics, full_slaAvailability, full_slaRequests, full_slaP95Request,
    full_slaP95Handshake, true_and, and_true]
  -- one metric a partition is left for each conjunct
  and_intros <;> exact full_perPartition c _ (by decide) (by decide) (by decide)

theorem full_jsonPartition (p : PartitionMetricsSnapshot) (last : Bool) :
    Full (jsonPartition p last) := by
  cases last <;> cases hh : p.halted <;> simp [jsonPartition, jsonNumber, hh]

/-- No piece of the JSON text is empty. -/
theorem full_jsonPieces (F : Floats) (c : ObservabilityCollector) : Full (jsonPieces F c) := by
  have hhealth : (if c.isHealthy then "HEALTHY" else "DEGRADED") ≠ "" := by split_ifs <;> decide
  have hready : (if c.ready then "true" else "false") ≠ "" := by split_ifs <;> decide
  simp [jsonPieces, jsonBody, jsonNumber, full_jsonPartition, hhealth, hready,
    AuditMetrics.availabilityRatioGlobal]

/-! ### Clean sizes -/

section Clean

variable {pieces : List Piece} {n : ℕ}

/-- A buffer of some bytes gets the fragments. -/
theorem renderInto_of_pos (hn : n ≠ 0) :
    renderInto pieces n = (BoundedWriter.fresh n).putAll (fragments pieces) := by
  rw [renderInto, if_neg hn, foldl_call]

/-- A buffer for the whole page receives it. -/
theorem renderInto_of_le (hn : size pieces ≤ n) :
    (renderInto pieces n).out = (fragments pieces).flatten := by
  by_cases h0 : n = 0
  · rw [renderInto, if_pos h0]
    have hlen : (fragments pieces).flatten.length = 0 := by
      rw [List.length_flatten]
      exact Nat.le_zero.mp (h0 ▸ hn)
    exact (List.length_eq_zero_iff.mp hlen).symm
  · have hall : (BoundedWriter.fresh n).putAll (fragments pieces) =
        ⟨[] ++ (fragments pieces).flatten, n - size pieces, false, false⟩ :=
      BoundedWriter.putAll_of_le rfl rfl hn
    rw [renderInto_of_pos h0, hall]
    rfl

/-- Nothing fits into an empty buffer. -/
theorem late_fresh_zero : ∀ {fs : List Bytes}, (∀ f ∈ fs, f ≠ []) →
    ((BoundedWriter.fresh 0).putAll fs).late = false
  | [], _ => rfl
  | f :: fs, h => by
    rw [List.forall_mem_cons] at h
    rw [BoundedWriter.putAll_cons, BoundedWriter.put_of_lt (List.length_pos_iff.mpr h.1),
      BoundedWriter.late_of_dropped rfl rfl]
    exact fun g hg => List.length_pos_iff.mpr (h.2 g hg)

/-- **A page is a clean prefix exactly when nothing comes late.** -/
theorem cleanPrefix_iff_late (hfull : Full pieces) :
    CleanPrefix (renderInto pieces) n ↔
      ((BoundedWriter.fresh n).putAll (fragments pieces)).late = false := by
  have hlate : (renderInto pieces n).late =
      ((BoundedWriter.fresh n).putAll (fragments pieces)).late := by
    by_cases h0 : n = 0
    · rw [renderInto, if_pos h0, h0, late_fresh_zero hfull]
      rfl
    · rw [renderInto_of_pos h0]
  rw [CleanPrefix, hlate]
  refine and_iff_left_of_imp fun h => ⟨_, size pieces, fun big => renderInto_of_le, ?_⟩
  by_cases h0 : n = 0
  · rw [renderInto, if_pos h0]
    exact List.nil_prefix
  · rw [renderInto_of_pos h0]
    exact BoundedWriter.out_prefix h

/-- The fragments of two texts one after the other. -/
theorem fragments_append (ps qs : List Piece) :
    fragments (ps ++ qs) = fragments ps ++ fragments qs := List.flatMap_append

/-- A page that ends with the end of a line. -/
theorem cleanPrefix_iff_line (hp : [.text "\n"] <:+ pieces) (hfull : Full pieces) :
    CleanPrefix (renderInto pieces) n ↔ size pieces ≤ n ∨ FilledBy pieces n := by
  obtain ⟨init, hinit⟩ := hp
  have hfrag : fragments pieces = fragments init ++ [[10]] := by
    rw [← hinit, fragments_append]
    rfl
  rw [cleanPrefix_iff_late hfull, size, FilledBy, hfrag]
  exact BoundedWriter.late_iff_last_one (hfrag ▸ hfull)

/-- A page whose last two pieces close two objects after the end of a line. -/
theorem cleanPrefix_iff_closing
    (hp : [.text "\n", .text "  \x7d\n", .text "\x7d\n"] <:+ pieces) (hfull : Full pieces) :
    CleanPrefix (renderInto pieces) n ↔
      size pieces ≤ n ∨ FilledBy pieces n ∨ n + 5 = size pieces ∨ n + 1 = size pieces := by
  obtain ⟨init, hinit⟩ := hp
  have hfrag : fragments pieces =
      fragments init ++ [10] :: [[32, 32, 125, 10], [125, 10]] := by
    rw [← hinit, fragments_append]
    rfl
  have hsize : size pieces = BoundedWriter.total (fragments init ++ [[10]]) + 6 := by
    rw [size, hfrag]
    simp [Nat.add_assoc]
  -- two cuts of the closing are boundaries: before the last two lines and between them
  have hbody : FilledBy pieces (BoundedWriter.total (fragments init ++ [[10]])) := by
    rw [FilledBy, hfrag, ← List.singleton_append, ← List.append_assoc]
    exact BoundedWriter.boundary_append _ _
  have hinner : FilledBy pieces (BoundedWriter.total (fragments init ++ [[10]]) + 4) := by
    have h := BoundedWriter.boundary_append (fragments init ++ [[10], [32, 32, 125, 10]])
      [([125, 10] : Bytes)]
    rw [FilledBy, hfrag]
    simpa [Nat.add_assoc] using h
  rw [cleanPrefix_iff_late hfull, hfrag, BoundedWriter.late_iff_last_two (hfrag ▸ hfull), ← hfrag,
    hsize]
  simp only [List.length_cons, List.length_nil]
  constructor
  · rintro (hb | ⟨hle, hlt⟩ | hle)
    · exact .inr (.inl hb)
    · rcases Nat.eq_or_lt_of_le hle with rfl | hlt'
      · exact .inr (.inl hbody)
      · exact .inr (.inr (.inl (by omega)))
    · rcases Nat.eq_or_lt_of_le hle with heq | hlt'
      · exact .inr (.inl (heq ▸ hinner))
      · rcases Nat.lt_or_ge n (BoundedWriter.total (fragments init ++ [[10]]) + 6) with hn | hn
        · exact .inr (.inr (.inr (by omega)))
        · exact .inl hn
  · rintro (hn | hb | hn | hn)
    · exact .inr (.inr (by omega))
    · exact .inl hb
    · exact .inr (.inl (by omega))
    · exact .inr (.inr (by omega))

end Clean

/-- What each endpoint ends with is what all of them end with. -/
theorem suffix_endpoints {s : List Piece} {g : Endpoint → List Piece}
    (h : ∀ ep, s <:+ g ep) : s <:+ endpoints.flatMap g := by
  rw [show endpoints = [.investmentsList, .investmentDetail, .balances, .transactions,
    .transactionsCurrent] ++ [.brokerNote] from rfl, List.flatMap_append, List.flatMap_singleton]
  exact List.suffix_append_of_suffix (h .brokerNote)

/-- The Prometheus text ends with a line feed. -/
theorem suffix_prometheus (F : Floats) (c : ObservabilityCollector) :
    [.text "\n"] <:+ prometheusPieces F c := by
  unfold prometheusPieces slaP95Handshake
  refine List.suffix_append_of_suffix (List.suffix_append_of_suffix (suffix_endpoints fun ep => ?_))
  exact ⟨[.text _, .text _, .text _, .u64 _], rfl⟩

/-- The JSON text ends with its closing brackets. -/
theorem suffix_json (F : Floats) (c : ObservabilityCollector) :
    [.text "\n", .text "  \x7d\n", .text "\x7d\n"] <:+ jsonPieces F c := by
  have hbody : [.text "\n"] <:+ jsonBody F c := by
    unfold jsonBody
    exact List.suffix_append_of_suffix ⟨[.text _, .text _, .text _, .double _], rfl⟩
  obtain ⟨init, hinit⟩ := hbody
  refine ⟨init, ?_⟩
  rw [jsonPieces, ← hinit, List.append_assoc]
  rfl

/-- **The buffers that receive a clean prefix.** The metrics: those that hold the whole text and
those that some first fragments fill; the status object: these, and the two that are one byte and
five bytes short of the whole. -/
theorem cleanPrefix_iff (F : Floats) (c : ObservabilityCollector) (n : ℕ) :
    (CleanPrefix (c.renderPrometheus F) n ↔
      size (prometheusPieces F c) ≤ n ∨ FilledBy (prometheusPieces F c) n) ∧
    (CleanPrefix (c.renderJsonStatus F) n ↔
      size (jsonPieces F c) ≤ n ∨ FilledBy (jsonPieces F c) n ∨
        n + 5 = size (jsonPieces F c) ∨ n + 1 = size (jsonPieces F c)) := by
  exact ⟨cleanPrefix_iff_line (suffix_prometheus F c) (full_prometheus F c),
    cleanPrefix_iff_closing (suffix_json F c) (full_jsonPieces F c)⟩

/-- A collector that was told nothing. -/
def blank : ObservabilityCollector where
  partitions := []
  ingress := ⟨0, 0, 0, 0, 0, 0⟩
  audit := ⟨fun _ => .empty, fun _ => .empty, fun _ => 0, fun _ => 0, fun _ => 0⟩
  ready := false
  length_le := Nat.zero_le 64

/-- In 60 bytes the first line of the metrics is dropped, and the second one is written. -/
theorem blank_late (F : Floats) : (blank.renderPrometheus F 60).late = true := by
  obtain ⟨rest, hrest⟩ : ∃ rest, prometheusPieces F blank = heading
      "# HELP motor_rv_events_applied_total Total de eventos do log aplicados pela maquina de estados\n"
      "# TYPE motor_rv_events_applied_total counter\n" ++ rest := by
    unfold prometheusPieces eventsApplied
    simp only [List.append_assoc]
    exact ⟨_, rfl⟩
  rw [ObservabilityCollector.renderPrometheus, renderInto_of_pos (by decide), hrest,
    fragments_append, BoundedWriter.putAll_append]
  refine BoundedWriter.late_putAll ?_
  decide +kernel

/-- Not every page is a clean prefix. -/
theorem not_cleanPrefix :
    ¬ ∀ (F : Floats) (c : ObservabilityCollector) (n : ℕ),
      CleanPrefix (c.renderPrometheus F) n ∧ CleanPrefix (c.renderJsonStatus F) n := by
  intro h
  have hclean := (h ⟨fun count => 95 * count / 100, fun _ _ => "1.000000", fun _ _ => by decide⟩
    blank 60).1.1
  rw [blank_late] at hclean
  exact Bool.noConfusion hclean

end Edge

end MotorRv
