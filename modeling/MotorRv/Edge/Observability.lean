import MotorRv.Base.Metrics
import MotorRv.Lib.Bytes
import MotorRv.Lib.BoundedWriter

/-!
# Metrics and status pages

The collector keeps the last snapshot of each partition and of the ingress, and the counters of the
edge. It renders them as a metrics text and as a status object, piece by piece, into a buffer of
fixed size; a piece that does not fit is dropped, and the next one is tried.

The floating-point steps are parameters: the rank that a fraction of a count is converted to, and
the text of a ratio.

A page is a list of `Piece`s, one for each call of the writer in the order of the code, and
rendering folds the writer over it. So the text of a page is a function of the collector, and what
happens to it in a small buffer is a question about lists of fragments, which is taken up apart.

The pieces are those of the code down to the spaces and the ends of lines, since a truncated page is
judged byte by byte; a metric that has one line for each partition, or each endpoint, is one
definition with the parts of the line as parameters.
-/

namespace MotorRv

open Lib

namespace Edge

/-! ### The writer -/

/-- The bytes of a text; all texts here are ASCII. -/
def ascii (s : String) : Bytes := s.toList.map fun c => UInt8.ofNat c.toNat

/-- Decimal digits, as `std::to_chars` writes them. -/
def digits (v : UInt64) : Bytes := (Nat.toDigits 10 v.toNat).map fun c => UInt8.ofNat c.toNat

/-- `%016lx`. -/
def hex16 (v : UInt64) : Bytes :=
  (List.range 16).map fun i => UInt8.ofNat (Nat.digitChar (v.toNat / 16 ^ (15 - i) % 16)).toNat

/-- `FastBufferWriter`: the pointers into the buffer as the text so far and the room left. That an
append was refused, and that one was written later, is recorded beside them. -/
abbrev FastBufferWriter := BoundedWriter UInt8

namespace FastBufferWriter

def append (w : FastBufferWriter) (s : Bytes) : Bool × FastBufferWriter :=
  (decide (s.length ≤ w.room), w.put s)

def appendU64 (w : FastBufferWriter) (v : UInt64) : Bool × FastBufferWriter := w.append (digits v)

def appendHex64 (w : FastBufferWriter) (v : UInt64) : Bool × FastBufferWriter :=
  match w.append (ascii "0x") with
  | (false, w') => (false, w')
  | (true, w') => w'.append (hex16 v)

/-- The text of the value is made first; it is never longer than its own buffer. -/
def appendDouble (w : FastBufferWriter) (v : String) : Bool × FastBufferWriter := w.append (ascii v)

end FastBufferWriter

/-- One call of the writer. -/
inductive Piece
  | text (s : String)
  | u64 (v : UInt64)
  | hex64 (v : UInt64)
  | double (v : String)

/-- The answers of the calls are ignored. -/
def FastBufferWriter.call (w : FastBufferWriter) : Piece → FastBufferWriter
  | .text s => (w.append (ascii s)).2
  | .u64 v => (w.appendU64 v).2
  | .hex64 v => (w.appendHex64 v).2
  | .double v => (w.appendDouble v).2

/-- The calls one after the other, over a buffer of `n` bytes; nothing is called for an empty
one. -/
def renderInto (pieces : List Piece) (n : ℕ) : FastBufferWriter :=
  if n = 0 then BoundedWriter.fresh 0 else pieces.foldl FastBufferWriter.call (.fresh n)

/-! ### The collector -/

def kMaxErrCode : ℕ := 512

structure PartitionMetricsSnapshot where
  partitionId : UInt16
  lastLsn : UInt64
  durableLsn : UInt64
  custodyChecksum : UInt64
  activeAccounts : UInt32
  activePositions : UInt32
  halted : Bool
  applyAccepted : UInt64
  applyRejected : UInt64
  applyFatal : UInt64
  tradesClosed : UInt64
  rejectedByCode : List UInt32
  walAppends : UInt64
  walGroups : UInt64
  walBytes : UInt64
  walFull : UInt64
  walLatP50Ns : UInt64
  walLatP90Ns : UInt64
  walLatP99Ns : UInt64
  walLatP999Ns : UInt64
  walLatMaxNs : UInt64
  walLatSumNs : UInt64
  walLatCount : UInt64
  outboxStaged : UInt64
  outboxReleased : UInt64
  outboxFull : UInt64
  length_rejectedByCode : rejectedByCode.length = kMaxErrCode

structure IngressMetricsSnapshot where
  bytesReceived : UInt64
  eventsReceived : UInt64
  eventsRouted : UInt64
  eventsBroadcast : UInt64
  backpressureStalls : UInt64
  parseErrors : UInt64

inductive Endpoint
  | investmentsList
  | investmentDetail
  | balances
  | transactions
  | transactionsCurrent
  | brokerNote

def endpointName : Endpoint → String
  | .investmentsList => "investments_list"
  | .investmentDetail => "investment_detail"
  | .balances => "balances"
  | .transactions => "transactions"
  | .transactionsCurrent => "transactions_current"
  | .brokerNote => "broker_note"

/-- The endpoints in order. -/
def endpoints : List Endpoint :=
  [.investmentsList, .investmentDetail, .balances, .transactions, .transactionsCurrent, .brokerNote]

structure AuditMetrics where
  requestLat : Endpoint → Histogram
  handshakeLat : Endpoint → Histogram
  successCounts : Endpoint → UInt64
  errorCounts : Endpoint → UInt64
  clientRejectCounts : Endpoint → UInt64

/-- What the processor does with doubles: `0.95 * count` as an integer, and `ok / total` with six
places. -/
structure Floats where
  rank95 : ℕ → ℕ
  ratio : UInt64 → UInt64 → String
  ratio_ne_empty : ∀ ok total, ratio ok total ≠ ""

namespace AuditMetrics

def p95RequestNs (F : Floats) (a : AuditMetrics) (ep : Endpoint) : UInt64 :=
  UInt64.ofNat ((a.requestLat ep).quantile (F.rank95 (a.requestLat ep).count))

def p95HandshakeNs (F : Floats) (a : AuditMetrics) (ep : Endpoint) : UInt64 :=
  UInt64.ofNat ((a.handshakeLat ep).quantile (F.rank95 (a.handshakeLat ep).count))

/-- The text of the availability for the given counts; with none it is 1. -/
def ratioText (F : Floats) (ok err : UInt64) : String :=
  if ok + err = 0 then "1.000000" else F.ratio ok (ok + err)

def availabilityRatio (F : Floats) (a : AuditMetrics) (ep : Endpoint) : String :=
  ratioText F (a.successCounts ep) (a.errorCounts ep)

def availabilityRatioGlobal (F : Floats) (a : AuditMetrics) : String :=
  ratioText F ((endpoints.map a.successCounts).sum) ((endpoints.map a.errorCounts).sum)

end AuditMetrics

/-- The snapshots of the partitions in use, at most 64. -/
structure ObservabilityCollector where
  partitions : List PartitionMetricsSnapshot
  ingress : IngressMetricsSnapshot
  audit : AuditMetrics
  ready : Bool
  length_le : partitions.length ≤ 64

def ObservabilityCollector.isHealthy (c : ObservabilityCollector) : Bool :=
  c.partitions.all fun p => !(p.halted || decide (0 < p.applyFatal))

/-! ### The labels of the rejections -/

/-- `clean_reason_label`; a number without a name has that of `to_string`. -/
def cleanReasonLabel (code : ℕ) : String :=
  match code with
  | 0 => "Ok"
  | 1 => "OutOfRange"
  | 2 => "ArenaExhausted"
  | 3 => "Overflow"
  | 4 => "NotFound"
  | 5 => "WouldBlock"
  | 6 => "InvalidArgument"
  | 100 => "UnknownTemplate"
  | 101 => "ShortPayload"
  | 102 => "BadBlockLength"
  | 103 => "GroupTooLarge"
  | 104 => "Misaligned"
  | 200 => "InvalidTransition_I5"
  | 201 => "AlreadyApplied_I6"
  | 202 => "NegativeBucket_I3"
  | 203 => "QtyMismatch"
  | 204 => "UnknownBatch"
  | 205 => "AmountMismatch"
  | 206 => "ShortSaleNotAllowed_I3"
  | 207 => "InstrumentNotDescribed"
  | 208 => "OutsideSettlementWindow"
  | 250 => "UnknownInstrument_FATAL"
  | 251 => "UnknownAccount_FATAL"
  | 252 => "LedgerOverflow_FATAL"
  | 253 => "StateCorrupt_FATAL"
  | 300 => "WalFull"
  | 350 => "ShortWrite_FATAL"
  | 351 => "IoError_FATAL"
  | 352 => "BadCrc_FATAL"
  | 353 => "BadMagic_FATAL"
  | 354 => "LsnGap_FATAL"
  | 355 => "EpochMismatch_FATAL"
  | 356 => "SegmentFull_FATAL"
  | 400 => "MissingInteractionId_R1"
  | 401 => "BadSignature_R7"
  | 402 => "TokenExpired_R2"
  | 403 => "CertBindingMismatch_R3"
  | 404 => "ConsentNotAuthorised_R4"
  | 405 => "ScopeMissing_R5"
  | 406 => "OperationalLimit_R16"
  | 407 => "RateLimited_R16"
  | 408 => "MalformedRequest"
  | 409 => "ResourceNotFound"
  | 410 => "TlsProfileViolation_R6"
  | _ => "Err(?)"

/-! ### The metrics text -/

section Prometheus

open Piece

/-- The two comment lines before a metric. -/
def heading (help type : String) : List Piece := [text help, text type]

/-- A line of a partition: `name` up to the number of the partition, `label` up to the value. -/
def partitionLine (name label : String) (p : PartitionMetricsSnapshot) (value : UInt64) :
    List Piece :=
  [text name, u64 p.partitionId.toUInt64, text label, u64 value, text "\n"]

/-- A metric with one line a partition. -/
def perPartition (c : ObservabilityCollector) (help type name : String)
    (value : PartitionMetricsSnapshot → UInt64) : List Piece :=
  heading help type ++ c.partitions.flatMap fun p => partitionLine name "\"\x7d " p (value p)

/-- A line of an endpoint with a count. -/
def endpointLine (name label : String) (ep : Endpoint) (value : UInt64) : List Piece :=
  [text name, text (endpointName ep), text label, u64 value, text "\n"]

def eventsApplied (c : ObservabilityCollector) : List Piece :=
  heading
      "# HELP motor_rv_events_applied_total Total de eventos do log aplicados pela maquina de estados\n"
      "# TYPE motor_rv_events_applied_total counter\n" ++
    c.partitions.flatMap fun p =>
      partitionLine "motor_rv_events_applied_total\x7bpartition=\"" "\",status=\"accepted\"\x7d " p
        p.applyAccepted ++
      partitionLine "motor_rv_events_applied_total\x7bpartition=\"" "\",status=\"rejected\"\x7d " p
        p.applyRejected ++
      partitionLine "motor_rv_events_applied_total\x7bpartition=\"" "\",status=\"fatal\"\x7d " p
        p.applyFatal

/-- The lines of the codes with a count. -/
def rejections (c : ObservabilityCollector) : List Piece :=
  heading
      "# HELP motor_rv_rejections_total Contagem exata de rejeicoes por particao, codigo e razao\n"
      "# TYPE motor_rv_rejections_total counter\n" ++
    c.partitions.flatMap fun p =>
      (List.range kMaxErrCode).flatMap fun code =>
        if p.rejectedByCode.getD code 0 = 0 then []
        else
          [text "motor_rv_rejections_total\x7bpartition=\"", u64 p.partitionId.toUInt64,
            text "\",code=\"", u64 (UInt64.ofNat code), text "\",reason=\"",
            text (cleanReasonLabel code), text "\"\x7d ",
            u64 (p.rejectedByCode.getD code 0).toUInt64, text "\n"]

def commitLatency (c : ObservabilityCollector) : List Piece :=
  heading
      "# HELP motor_rv_wal_commit_latency_ns Latencia de persistencia e commit duravel do WAL\n"
      "# TYPE motor_rv_wal_commit_latency_ns summary\n" ++
    c.partitions.flatMap fun p =>
      partitionLine "motor_rv_wal_commit_latency_ns\x7bpartition=\"" "\",quantile=\"0.5\"\x7d " p
        p.walLatP50Ns ++
      partitionLine "motor_rv_wal_commit_latency_ns\x7bpartition=\"" "\",quantile=\"0.9\"\x7d " p
        p.walLatP90Ns ++
      partitionLine "motor_rv_wal_commit_latency_ns\x7bpartition=\"" "\",quantile=\"0.99\"\x7d " p
        p.walLatP99Ns ++
      partitionLine "motor_rv_wal_commit_latency_ns\x7bpartition=\"" "\",quantile=\"0.999\"\x7d " p
        p.walLatP999Ns ++
      partitionLine "motor_rv_wal_commit_latency_ns\x7bpartition=\"" "\",quantile=\"1.0\"\x7d " p
        p.walLatMaxNs ++
      partitionLine "motor_rv_wal_commit_latency_ns_sum\x7bpartition=\"" "\"\x7d " p
        p.walLatSumNs ++
      partitionLine "motor_rv_wal_commit_latency_ns_count\x7bpartition=\"" "\"\x7d " p p.walLatCount

def ingressMetrics (c : ObservabilityCollector) : List Piece :=
  heading
      "# HELP motor_rv_ingress_bytes_total Bytes de rede SBE recebidos pelo pipeline de ingress\n"
      "# TYPE motor_rv_ingress_bytes_total counter\n" ++
    [text "motor_rv_ingress_bytes_total ", u64 c.ingress.bytesReceived, text "\n"] ++
    heading
      "# HELP motor_rv_ingress_events_total Eventos processados no pipeline de ingress por tipo\n"
      "# TYPE motor_rv_ingress_events_total counter\n" ++
    [text "motor_rv_ingress_events_total\x7btype=\"received\"\x7d ", u64 c.ingress.eventsReceived,
      text "\n",
      text "motor_rv_ingress_events_total\x7btype=\"routed\"\x7d ", u64 c.ingress.eventsRouted,
      text "\n",
      text "motor_rv_ingress_events_total\x7btype=\"broadcast\"\x7d ",
        u64 c.ingress.eventsBroadcast,
      text "\n",
      text "motor_rv_ingress_events_total\x7btype=\"backpressure_stalls\"\x7d ",
      u64 c.ingress.backpressureStalls, text "\n",
      text "motor_rv_ingress_events_total\x7btype=\"parse_errors\"\x7d ", u64 c.ingress.parseErrors,
      text "\n"]

def slaAvailability (F : Floats) (c : ObservabilityCollector) : List Piece :=
  heading
      "# HELP motor_rv_sla_availability_ratio R18: Disponibilidade medida (sucessos 2XX/422 vs erros 5XX/408)\n"
      "# TYPE motor_rv_sla_availability_ratio gauge\n" ++
    endpoints.flatMap fun ep =>
      [text "motor_rv_sla_availability_ratio\x7bendpoint=\"", text (endpointName ep),
        text "\"\x7d ",
        double (c.audit.availabilityRatio F ep), text "\n"]

def slaRequests (c : ObservabilityCollector) : List Piece :=
  heading
      "# HELP motor_rv_sla_requests_total R18: Total de chamadas por endpoint e classe\n"
      "# TYPE motor_rv_sla_requests_total counter\n" ++
    endpoints.flatMap fun ep =>
      endpointLine "motor_rv_sla_requests_total\x7bendpoint=\"" "\",class=\"success\"\x7d " ep
        (c.audit.successCounts ep) ++
      endpointLine "motor_rv_sla_requests_total\x7bendpoint=\"" "\",class=\"error\"\x7d " ep
        (c.audit.errorCounts ep) ++
      endpointLine "motor_rv_sla_requests_total\x7bendpoint=\"" "\",class=\"client_reject\"\x7d " ep
        (c.audit.clientRejectCounts ep)

def slaP95Request (F : Floats) (c : ObservabilityCollector) : List Piece :=
  heading
      "# HELP motor_rv_sla_p95_request_latency_ns R17: Latencia P95 da requisicao por endpoint sem handshake\n"
      "# TYPE motor_rv_sla_p95_request_latency_ns gauge\n" ++
    endpoints.flatMap fun ep =>
      endpointLine "motor_rv_sla_p95_request_latency_ns\x7bendpoint=\"" "\"\x7d " ep
        (c.audit.p95RequestNs F ep)

def slaP95Handshake (F : Floats) (c : ObservabilityCollector) : List Piece :=
  heading
      "# HELP motor_rv_sla_p95_handshake_latency_ns R17: Latencia P95 de handshake isolada da requisicao\n"
      "# TYPE motor_rv_sla_p95_handshake_latency_ns gauge\n" ++
    endpoints.flatMap fun ep =>
      endpointLine "motor_rv_sla_p95_handshake_latency_ns\x7bendpoint=\"" "\"\x7d " ep
        (c.audit.p95HandshakeNs F ep)

/-- The calls of `render_prometheus`, in order. -/
def prometheusPieces (F : Floats) (c : ObservabilityCollector) : List Piece :=
  eventsApplied c ++
  perPartition c
    "# HELP motor_rv_trades_closed_total Negocios fechados e compactados na virada de pregao\n"
    "# TYPE motor_rv_trades_closed_total counter\n"
    "motor_rv_trades_closed_total\x7bpartition=\"" (·.tradesClosed) ++
  rejections c ++
  perPartition c
    "# HELP motor_rv_wal_durable_lsn Ultimo LSN confirmado gravado e duravel em disco (O_DSYNC)\n"
    "# TYPE motor_rv_wal_durable_lsn gauge\n"
    "motor_rv_wal_durable_lsn\x7bpartition=\"" (·.durableLsn) ++
  perPartition c
    "# HELP motor_rv_wal_last_lsn Ultimo LSN submetido ao log da particao\n"
    "# TYPE motor_rv_wal_last_lsn gauge\n"
    "motor_rv_wal_last_lsn\x7bpartition=\"" (·.lastLsn) ++
  perPartition c
    "# HELP motor_rv_custody_checksum Checksum 64-bit da custodia total da particao (I1..I13)\n"
    "# TYPE motor_rv_custody_checksum gauge\n"
    "motor_rv_custody_checksum\x7bpartition=\"" (·.custodyChecksum) ++
  perPartition c
    "# HELP motor_rv_partition_halted Indicador booleano (1=fail-stop por divergencia contabil, 0=ok)\n"
    "# TYPE motor_rv_partition_halted gauge\n"
    "motor_rv_partition_halted\x7bpartition=\"" (fun p => if p.halted then 1 else 0) ++
  perPartition c
    "# HELP motor_rv_active_accounts Total de contas alocadas no indice denso da particao\n"
    "# TYPE motor_rv_active_accounts gauge\n"
    "motor_rv_active_accounts\x7bpartition=\"" (·.activeAccounts.toUInt64) ++
  perPartition c
    "# HELP motor_rv_active_positions Total de posicoes em custodia abertas na particao\n"
    "# TYPE motor_rv_active_positions gauge\n"
    "motor_rv_active_positions\x7bpartition=\"" (·.activePositions.toUInt64) ++
  perPartition c
    "# HELP motor_rv_wal_appends_total Total de appends submetidos ao WAL\n"
    "# TYPE motor_rv_wal_appends_total counter\n"
    "motor_rv_wal_appends_total\x7bpartition=\"" (·.walAppends) ++
  perPartition c
    "# HELP motor_rv_wal_groups_total Grupos de commit persistidos no WAL\n"
    "# TYPE motor_rv_wal_groups_total counter\n"
    "motor_rv_wal_groups_total\x7bpartition=\"" (·.walGroups) ++
  perPartition c
    "# HELP motor_rv_wal_bytes_total Bytes gravados em disco pelo WAL\n"
    "# TYPE motor_rv_wal_bytes_total counter\n"
    "motor_rv_wal_bytes_total\x7bpartition=\"" (·.walBytes) ++
  perPartition c
    "# HELP motor_rv_wal_full_total Ocorrencias de WAL cheio (contrapressao de anel)\n"
    "# TYPE motor_rv_wal_full_total counter\n"
    "motor_rv_wal_full_total\x7bpartition=\"" (·.walFull) ++
  commitLatency c ++
  perPartition c
    "# HELP motor_rv_outbox_staged_total Eventos preparados para saida\n"
    "# TYPE motor_rv_outbox_staged_total counter\n"
    "motor_rv_outbox_staged_total\x7bpartition=\"" (·.outboxStaged) ++
  perPartition c
    "# HELP motor_rv_outbox_released_total Eventos liberados pelo loop da particao\n"
    "# TYPE motor_rv_outbox_released_total counter\n"
    "motor_rv_outbox_released_total\x7bpartition=\"" (·.outboxReleased) ++
  perPartition c
    "# HELP motor_rv_outbox_full_total Ocorrencias de outbox cheia\n"
    "# TYPE motor_rv_outbox_full_total counter\n"
    "motor_rv_outbox_full_total\x7bpartition=\"" (·.outboxFull) ++
  ingressMetrics c ++
  slaAvailability F c ++
  slaRequests c ++
  slaP95Request F c ++
  slaP95Handshake F c

end Prometheus

/-! ### The status object -/

section Json

open Piece

/-- A number on a line of its own. -/
def jsonNumber (name : String) (value : UInt64) (close : String) : List Piece :=
  [text name, u64 value, text close]

def jsonPartition (p : PartitionMetricsSnapshot) (last : Bool) : List Piece :=
  [text "    \x7b\n"] ++
  jsonNumber "      \"id\": " p.partitionId.toUInt64 ",\n" ++
  [text "      \"halted\": ", text (if p.halted then "true" else "false"), text ",\n"] ++
  jsonNumber "      \"durable_lsn\": " p.durableLsn ",\n" ++
  jsonNumber "      \"last_lsn\": " p.lastLsn ",\n" ++
  [text "      \"custody_checksum\": \"", hex64 p.custodyChecksum, text "\",\n"] ++
  jsonNumber "      \"active_accounts\": " p.activeAccounts.toUInt64 ",\n" ++
  jsonNumber "      \"active_positions\": " p.activePositions.toUInt64 ",\n" ++
  jsonNumber "      \"apply_accepted\": " p.applyAccepted ",\n" ++
  jsonNumber "      \"apply_rejected\": " p.applyRejected ",\n" ++
  jsonNumber "      \"apply_fatal\": " p.applyFatal ",\n" ++
  jsonNumber "      \"wal_bytes\": " p.walBytes ",\n" ++
  jsonNumber "      \"wal_commit_p99_ns\": " p.walLatP99Ns "\n" ++
  [text "    \x7d"] ++ (if last then [] else [text ","]) ++ [text "\n"]

/-- The calls of `render_json_status` up to the ratio and its end of line. -/
def jsonBody (F : Floats) (c : ObservabilityCollector) : List Piece :=
  [text "\x7b\n", text "  \"status\": \"", text (if c.isHealthy then "HEALTHY" else "DEGRADED"),
    text "\",\n", text "  \"ready\": ", text (if c.ready then "true" else "false"), text ",\n"] ++
  jsonNumber "  \"partitions_count\": " (UInt64.ofNat c.partitions.length) ",\n" ++
  [text "  \"partitions\": [\n"] ++
  c.partitions.zipIdx.flatMap (fun p => jsonPartition p.1 (p.2 + 1 == c.partitions.length)) ++
  [text "  ],\n", text "  \"ingress\": \x7b\n"] ++
  jsonNumber "    \"bytes_received\": " c.ingress.bytesReceived ",\n" ++
  jsonNumber "    \"events_received\": " c.ingress.eventsReceived ",\n" ++
  jsonNumber "    \"events_routed\": " c.ingress.eventsRouted ",\n" ++
  jsonNumber "    \"events_broadcast\": " c.ingress.eventsBroadcast ",\n" ++
  jsonNumber "    \"backpressure_stalls\": " c.ingress.backpressureStalls ",\n" ++
  jsonNumber "    \"parse_errors\": " c.ingress.parseErrors "\n" ++
  [text "  \x7d,\n", text "  \"sla\": \x7b\n", text "    \"availability_ratio_global\": ",
    double (c.audit.availabilityRatioGlobal F), text "\n"]

/-- The calls of `render_json_status`, in order. -/
def jsonPieces (F : Floats) (c : ObservabilityCollector) : List Piece :=
  jsonBody F c ++ [text "  \x7d\n", text "\x7d\n"]

end Json

def ObservabilityCollector.renderPrometheus (F : Floats) (c : ObservabilityCollector) (n : ℕ) :
    FastBufferWriter :=
  renderInto (prometheusPieces F c) n

def ObservabilityCollector.renderJsonStatus (F : Floats) (c : ObservabilityCollector) (n : ℕ) :
    FastBufferWriter :=
  renderInto (jsonPieces F c) n

end Edge

end MotorRv
