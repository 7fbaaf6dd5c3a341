import MotorRv.Core.Session
import MotorRv.Wal.ReaderSafety
import MotorRv.Wal.Wal

/-!
# Recovery

`recover` lists the images and the segments of a partition in a directory, loads the newest image
that can be loaded, and hands the records of the segments past that image to `apply`, oldest
segment first. It gives up at the first segment it cannot open, the first fatal answer and the
first segment that does not end cleanly.

What is handed to `apply` is kept beside the answer, segment by segment, so that it can be spoken
of also where a call aborts. The counters of the metrics are left out.

The file names are taken apart as the code does it, with `strtoull` and its leniency about blanks,
signs and `0x`, so that a file which only resembles a segment is listed here too. Entries that
cannot be opened or mapped are part of the directory and have no content.

`Replay` holds the variables of the function, and its loop is split into one turn (`answered`), one
segment (`readUpTo`, `read`) and the list of segments (`readSegs`), which is also how it is reasoned
about elsewhere. The image loads into the state and the arena that are handed in; a load that fails
leaves both as they are by then.
-/

namespace MotorRv

open Lib

/-! ### The directory -/

/-- An entry of a directory: its name, and its bytes unless it can be neither opened nor mapped. -/
structure DirEntry where
  name : List Char
  content : Option Bytes
  deriving DecidableEq

structure FileItem where
  lsn : ℕ
  entry : DirEntry
  deriving DecidableEq

/-- `isspace`. -/
def isSpace (c : Char) : Bool := c = ' ' || (9 ≤ c.toNat && c.toNat ≤ 13)

def hexDigit (c : Char) : Option ℕ :=
  if 48 ≤ c.toNat ∧ c.toNat ≤ 57 then some (c.toNat - 48)
  else if 97 ≤ c.toNat ∧ c.toNat ≤ 102 then some (c.toNat - 87)
  else if 65 ≤ c.toNat ∧ c.toNat ≤ 70 then some (c.toNat - 55)
  else none

/-- The number that the leading digits of base 16 continue, and what stands behind them. -/
def hexDigits : ℕ → List Char → ℕ × List Char
  | v, [] => (v, [])
  | v, c :: cs =>
    match hexDigit c with
    | some d => hexDigits (16 * v + d) cs
    | none => (v, c :: cs)

/-- The sign of a number, if it has one. -/
def splitSign : List Char → Bool × List Char
  | '-' :: cs => (true, cs)
  | '+' :: cs => (false, cs)
  | cs => (false, cs)

/-- `0x` goes only where a digit follows. -/
def dropHexPrefix : List Char → List Char
  | '0' :: x :: d :: cs =>
    if (x = 'x' ∨ x = 'X') ∧ (hexDigit d).isSome then d :: cs else '0' :: x :: d :: cs
  | cs => cs

/-- `strtoull` in base 16: the value, and where the conversion ended. -/
def strtoull16 (str : List Char) : ℕ × List Char :=
  let (neg, body) := splitSign (str.dropWhile isSpace)
  let digits := dropHexPrefix body
  if (digits.head?.bind hexDigit).isNone then (0, str)
  else
    let (v, stop) := hexDigits 0 digits
    (if 2 ^ 64 ≤ v then 2 ^ 64 - 1 else if neg then (2 ^ 64 - v) % 2 ^ 64 else v, stop)

/-- `lista_arquivos`: the entries with the prefix and the suffix and a number between them. -/
def listaArquivos (dir : List DirEntry) (prefixo sufixo : List Char) : List FileItem :=
  dir.filterMap fun ent =>
    if ent.name.length ≤ prefixo.length + sufixo.length then none
    else if ¬ prefixo.isPrefixOf ent.name then none
    else if ¬ sufixo.isSuffixOf ent.name then none
    else
      let (val, stop) := strtoull16 (ent.name.drop prefixo.length)
      if stop.head? = some '.' then some ⟨val, ent⟩ else none

/-- The name of a segment begins with this. -/
def segPrefix (part : ℕ) : List Char := 'p' :: (Nat.toDigits 10 part ++ ['_'])

/-- The name of an image begins with this. -/
def snapPrefix (part : ℕ) : List Char := ['s', 't', 'a', 't', 'e', '_'] ++ segPrefix part

/-- The images, newest first. The order of a directory is arbitrary, so that any order among
equals is the stable one for some order of the directory. -/
def snaps (dir : List DirEntry) (part : ℕ) : List FileItem :=
  (listaArquivos dir (snapPrefix part) ['.', 'i', 'm', 'g']).insertionSort fun a b => b.lsn ≤ a.lsn

/-- The segments, oldest first. -/
def segs (dir : List DirEntry) (part : ℕ) : List FileItem :=
  (listaArquivos dir (segPrefix part) ['.', 'w', 'a', 'l']).insertionSort fun a b => a.lsn ≤ b.lsn

example : strtoull16 ['0', '0', '1', 'f', '.', 'w', 'a', 'l'] = (31, ['.', 'w', 'a', 'l']) := by
  decide

/-! ### The image -/

/-- Load the first image that can be loaded; `i` images were passed over before. The answer is the
place of the image, if there is one. -/
def loadImages : ℕ → List FileItem → PartitionState → Arena →
    Exec (Option ℕ × PartitionState × Arena)
  | _, [], s, arena => .ok (none, s, arena)
  | i, snap :: rest, s, arena =>
    match snap.entry.content with
    | none | some [] => loadImages (i + 1) rest s arena
    | some image => do
      let (st, s', arena') ← loadStateImage s arena image
      if st.isOk then .ok (some i, s', arena') else loadImages (i + 1) rest s' arena'

/-! ### The segments -/

/-- `elapsed_ns` is never set. -/
structure RecoveryReport where
  imageLsn : ℕ
  usedFallbackImage : Bool
  lastValidLsn : ℕ
  recordsApplied : ℕ
  recordsRejected : ℕ
  stopReason : ReplayStopReason
  fatalLsn : ℕ
  fatalErr : Err
  deriving DecidableEq

/-- `Lsn::next`. -/
def lsnNext (lsn : ℕ) : ℕ := (lsn + 1) % 2 ^ 64

/-- The variables of the replay. -/
structure Replay where
  state : PartitionState
  report : RecoveryReport
  expectedLsn : ℕ
  maxValidLsn : ℕ
  tail : WalTail

/-- A segment that was opened: the LSN expected then, the reader, and the records that were handed
to `apply`. -/
structure OpenedSegment where
  expected : ℕ
  reader : SegmentReader
  records : List LogRecord

namespace Replay

/-- The variables after an event, and whether its answer is fatal. -/
def answered (v : Replay) (reader : SegmentReader) (ev : LogRecord) (st : Status)
    (state : PartitionState) : Bool × Replay :=
  if classify st = .fatal then
    (true, { v with
      state := state
      report := { v.report with
        fatalLsn := ev.lsn
        fatalErr := st.code
        stopReason := reader.stopReason } })
  else
    (false, { v with
      state := state
      report := if st.isOk then { v.report with recordsApplied := v.report.recordsApplied + 1 }
        else { v.report with recordsRejected := v.report.recordsRejected + 1 }
      expectedLsn := lsnNext ev.lsn })

/-- The loop over the records of a segment, for at most `n` calls of `next`: the records handed to
`apply`, whether a fatal answer ended it, the reader and the variables. -/
def readUpTo : ℕ → SegmentReader → Replay →
    List LogRecord × Exec (Bool × SegmentReader × Replay)
  | 0, r, v => ([], .ok (false, r, v))
  | n + 1, r, v =>
    match r.next with
    | (none, r') => ([], .ok (false, r', v))
    | (some ev, r') =>
      if ev.lsn ≤ v.report.imageLsn then readUpTo n r' v
      else
        match apply ⟨v.state, none⟩ ev with
        | .error a => ([ev], .error a)
        | .ok (st, e) =>
          match v.answered r' ev st e.s with
          | (true, v') => ([ev], .ok (true, r', v'))
          | (false, v') =>
            let (evs, out) := readUpTo n r' v'
            (ev :: evs, out)

/-- The loop over the records of a segment; a record takes at least one byte. -/
def read (r : SegmentReader) (v : Replay) : List LogRecord × Exec (Bool × SegmentReader × Replay) :=
  readUpTo (r.mapped.length - r.offset + 1) r v

/-- What is noted of a segment that has been read. -/
def close (v : Replay) (r : SegmentReader) : Replay :=
  let maxValidLsn := if v.maxValidLsn < r.lastValidLsn then r.lastValidLsn else v.maxValidLsn
  { v with
    maxValidLsn := maxValidLsn
    tail := ⟨r.firstLsn, r.resumeOffset, r.epoch, lsnNext maxValidLsn⟩ }

def stopAt (v : Replay) (reason : ReplayStopReason) : Replay :=
  { v with report := { v.report with stopReason := reason } }

/-- The loop over the segments: the segments opened, and the variables at its end. -/
def readSegs : List FileItem → Replay → List OpenedSegment × Exec Replay
  | [], v => ([], .ok v)
  | seg :: rest, v =>
    match seg.entry.content with
    | none => readSegs rest v
    | some mapped =>
      if mapped.length < kSegmentHdrBytes then readSegs rest v
      else
        match SegmentReader.open mapped v.expectedLsn with
        | (st, reader) =>
          if ¬ st.isOk then ([], .ok (v.stopAt reader.stopReason))
          else
            let (evs, out) := read reader v
            let opened : OpenedSegment := ⟨v.expectedLsn, reader, evs⟩
            match out with
            | .error a => ([opened], .error a)
            | .ok (parar, reader', v') =>
              if parar then ([opened], .ok (v'.close reader'))
              else if reader'.stopReason ≠ .clean then
                ([opened], .ok ((v'.close reader').stopAt reader'.stopReason))
              else
                let (more, out) := readSegs rest (v'.close reader')
                (opened :: more, out)

/-- The variables once the images have been tried. -/
def start (loaded : Option ℕ) (s : PartitionState) : Replay where
  state := s
  report :=
    { imageLsn := s.appliedLsn.toNat
      usedFallbackImage := loaded.any (0 < ·)
      lastValidLsn := 0
      recordsApplied := 0
      recordsRejected := 0
      stopReason := .clean
      fatalLsn := 0
      fatalErr := .ok }
  expectedLsn := lsnNext s.appliedLsn.toNat
  maxValidLsn := s.appliedLsn.toNat
  tail := .none

/-- What `recover` answers. -/
def result (v : Replay) : RecoveryReport × WalTail × PartitionState :=
  ({ v.report with lastValidLsn := v.maxValidLsn }, v.tail, v.state)

end Replay

/-- `recover`, once the files are listed. -/
def recoverFrom (s : PartitionState) (arena : Arena) (snaps segs : List FileItem) :
    List OpenedSegment × Exec (RecoveryReport × WalTail × PartitionState) :=
  match loadImages 0 snaps s arena with
  | .error a => ([], .error a)
  | .ok (loaded, s', _) =>
    let (opened, out) := Replay.readSegs segs (.start loaded s')
    (opened, out.map Replay.result)

/-- `recover`: the segments opened with the records handed to `apply`, and the answer. -/
def recover (s : PartitionState) (arena : Arena) (dir : List DirEntry) (part : ℕ) :
    List OpenedSegment × Exec (RecoveryReport × WalTail × PartitionState) :=
  recoverFrom s arena (snaps dir part) (segs dir part)

end MotorRv
