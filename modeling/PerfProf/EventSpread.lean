import PerfProf.Loop
import PerfProf.Framing

/-! The receiving side of event-spread.c and net.c: three incremental parsers for a
stream of perf records and the reader of recorded files. A buffer is the list of
its bytes, `event` an offset into it; what is still on the wire is a list of
arrivals, one for each read. -/
namespace PerfProf.EventSpread
open PerfProf.Loop PerfProf.Framing

/-- `BUF_LEN` and `PERF_SAMPLE_MAX_SIZE`. -/
def bufLen : Nat := 65536

/-- `sizeof(struct perf_event_header)`: `u32 type; u16 misc; u16 size`. -/
def headerLen : Nat := 8

def headerType (m : List UInt8) : Nat :=
  (m.getD 0 0).toNat + 256 * (m.getD 1 0).toNat + 65536 * (m.getD 2 0).toNat +
    16777216 * (m.getD 3 0).toNat

def headerSize (m : List UInt8) : Nat :=
  (m.getD 6 0).toNat + 256 * (m.getD 7 0).toNat

def perfRecordSample : Nat := 9
def perfRecordTp : Nat := 83

theorem headerSize_append (xs ys : List UInt8) (h : headerLen ≤ xs.length) :
    headerSize (xs ++ ys) = headerSize xs := by
  simp only [headerLen] at h
  simp only [headerSize, List.getD_eq_getElem?_getD]
  rw [List.getElem?_append_left (by omega), List.getElem?_append_left (by omega)]

theorem headerSize_lt (m : List UInt8) : headerSize m < bufLen := by
  have h6 := (m.getD 6 0).toNat_lt
  have h7 := (m.getD 7 0).toNat_lt
  simp only [headerSize, bufLen]
  omega

def perfHeader : Format UInt8 where
  header := headerLen
  size := headerSize
  header_pos := by decide
  size_append := headerSize_append

/-- What a receiver calls out to. Both callbacks see the memory from the record on and
may rewrite fields in place; they write to `event->sample.array`, never to the header.
`processEvent` is `block_process_event` (`none`: negative return), `eventConvert` is
`block_event_convert` (`none`: no instance for this sample). -/
structure Handler where
  enabled : Bool
  processEvent : List UInt8 → Option (List UInt8)
  eventConvert : List UInt8 → Option Nat × List UInt8
  process_length : ∀ m m', processEvent m = some m' → m'.length = m.length
  process_header : ∀ m m', processEvent m = some m' → m'.take headerLen = m.take headerLen
  convert_length : ∀ m, (eventConvert m).2.length = m.length
  convert_header : ∀ m, (eventConvert m).2.take headerLen = m.take headerLen

/-- What a read meets: bytes, if there are any yet, the end of the stream, or a failure. -/
inductive Arrival where
  | data (bytes : List UInt8)
  | shutdown
  | error
deriving DecidableEq

def Arrival.bytes : Arrival → List UInt8
  | .data bs => bs
  | .shutdown | .error => []

def wire (socket : List Arrival) : List UInt8 := (socket.map Arrival.bytes).flatten

/-- The results of `read` and `recv`: no data stands for `EAGAIN`, `shutdown` for the result 0 (an
orderly shutdown of the peer, or a host that is disconnected), `error` for any other failure. -/
inductive Recv where
  | data (bytes : List UInt8)
  | shutdown
  | error

def Recv.bytes : Recv → List UInt8
  | .data bs => bs
  | .shutdown | .error => []

/-- One `read`/`recv` of at most `len` bytes. -/
def recv (len : Nat) : List Arrival → Recv × List Arrival
  | [] => (.data [], [])
  | .error :: rest => (.error, rest)
  | .shutdown :: rest => (.shutdown, .shutdown :: rest)
  | .data bs :: rest =>
    if bs.length ≤ len then (.data bs, rest)
    else (.data (bs.take len), .data (bs.drop len) :: rest)

section Walk

/-- The record loop of `tcp_process_event` and of `handle_cdev_event`. -/
structure Walk where
  buf : List UInt8
  event : Nat
  size : Nat
  log : List (List UInt8)

def Walk.here (w : Walk) : List UInt8 := w.buf.drop w.event

def walkPass (H : Handler) (least : Nat) (w : Walk) : Pass Walk Bool :=
  if least ≤ w.size ∧ headerSize w.here ≤ w.size then
    let n := headerSize w.here
    match H.processEvent w.here with
    | none => .done { w with size := w.size - n, log := w.log ++ [w.here.take n] } false
    | some m => .again
        { buf := w.buf.take w.event ++ m, event := w.event + n, size := w.size - n,
          log := w.log ++ [w.here.take n] }
  else .done w true

/-- `size > sizeof(struct perf_event_header) && size >= event->header.size`. -/
def tcpProcessPass (H : Handler) : Walk → Pass Walk Bool := walkPass H (headerLen + 1)

/-- `cdev->read >= sizeof(struct perf_event_header) && cdev->read >= event->header.size`. -/
def cdevEventPass (H : Handler) : Walk → Pass Walk Bool := walkPass H headerLen

/-- The return value of `tcp_process_event`: a refused record gives up the whole buffer. -/
def tcpProcessed (total : Nat) (w : Walk) (accepted : Bool) : Nat :=
  if accepted then total - w.size else total

end Walk

section Receivers

/-- A connection with its private `event_copy` of which `read` bytes are filled. -/
structure Receiver where
  eventCopy : List UInt8
  read : Nat
  socket : List Arrival
  log : List (List UInt8)

/-- The `EPOLLIN` loop of `handle_inout` with `tcp_process_event`. At a shutdown the connection is
closed, and no notification follows. -/
def handleInout (H : Handler) : Nat → Receiver → Option Receiver
  | 0, _ => none
  | fuel+1, s =>
    match recv (bufLen - s.read) s.socket with
    | (.error, socket) => some { s with socket := socket }
    | (.shutdown, socket) => some { s with socket := socket }
    | (.data [], socket) => some { s with socket := socket }
    | (.data bs, socket) =>
      let total := s.read + bs.length
      match iterate (tcpProcessPass H) (fuel+1) ⟨blit s.eventCopy s.read bs, 0, total, s.log⟩ with
      | none => none
      | some (w, accepted) =>
        let processed := tcpProcessed total w accepted
        let left := total - processed
        handleInout H fuel
          { eventCopy := if left = 0 then w.buf else blit w.buf 0 (slice w.buf processed left)
            read := left, socket := socket, log := w.log }

/-- The `EPOLLIN` loop of `handle_cdev_event`. -/
def handleCdevEvent (H : Handler) : Nat → Receiver → Option Receiver
  | 0, _ => none
  | fuel+1, s =>
    match recv (bufLen - s.read) s.socket with
    | (.error, socket) => some { s with socket := socket }
    | (.shutdown, socket) => some { s with socket := socket }
    | (.data [], socket) => some { s with socket := socket }
    | (.data bs, socket) =>
      match iterate (cdevEventPass H) (fuel+1)
          ⟨blit s.eventCopy s.read bs, 0, s.read + bs.length, s.log⟩ with
      | none => none
      | some (w, false) => some ⟨w.buf, w.size, socket, w.log⟩
      | some (w, true) =>
        handleCdevEvent H fuel
          { eventCopy := if w.size = 0 then w.buf else blit w.buf 0 (slice w.buf w.event w.size)
            read := w.size, socket := socket, log := w.log }

end Receivers

section BlockRead

/-- The types of a block that is read record by record, `TYPE_TCP` and `TYPE_CDEV`. -/
inductive BlockType where
  | tcp
  | cdev
deriving DecidableEq

/-- `struct event_block` under `--order`: `size` unread bytes at `event`, the first record
of them being the one returned last. `log` lists every record taken off the stream,
`yielded` those that `block_read_event` returned. After `block_free` it is `freed`. -/
structure Block where
  eventBuf : List UInt8
  event : Nat
  size : Nat
  socket : List Arrival
  log : List (List UInt8)
  yielded : List (List UInt8)
  type : BlockType
  freed : Bool

def Block.here (b : Block) : List UInt8 := b.eventBuf.drop b.event

def Block.whole (b : Block) : Bool :=
  decide (headerLen < b.size) && decide (headerSize b.here ≤ b.size)

def Block.consume (b : Block) : Block :=
  if b.whole then
    { b with size := b.size - headerSize b.here, event := b.event + headerSize b.here }
  else b

/-- Make room at the front and read once, with `tcp_read_init` or `cdev_read_init`. The flag is
false when the read failed: the bytes have been moved by then, `event` has not. A shutdown is
no failure: `tcp_recv` returns 0 for it, after `handle_errhup` and `tcp_disconnect` have freed the
block. -/
def Block.refill (b : Block) : Block × Bool :=
  let buf := if b.size ≠ 0 ∧ b.event ≠ 0 then
    blit b.eventBuf 0 (slice b.eventBuf b.event b.size) else b.eventBuf
  match recv (bufLen - b.size) b.socket with
  | (.error, socket) => ({ b with eventBuf := buf, socket := socket }, false)
  | (.shutdown, socket) =>
    ({ b with eventBuf := buf, event := 0, socket := socket,
              freed := b.freed || decide (b.type = .tcp) }, true)
  | (.data bs, socket) =>
    ({ b with eventBuf := blit buf b.size bs, event := 0, size := b.size + bs.length,
              socket := socket }, true)

def Block.fill (init : Bool) (b : Block) : Block × Bool :=
  if init && !b.whole then b.refill else (b, true)

/-- Write back what a callback made of the memory at `event`. -/
def Block.rewrite (b : Block) (m : List UInt8) : Block :=
  { b with eventBuf := b.eventBuf.take b.event ++ m }

/-- The part of `block_read_event` after `// read event`. -/
def Block.take (H : Handler) (b : Block) : Pass Block (Option (List UInt8)) :=
  if b.whole then
    let record := b.here.take (headerSize b.here)
    let b := { b with log := b.log ++ [record] }
    if headerType b.here = perfRecordTp then
      match H.processEvent b.here with
      | none => .done b none
      | some m => .again (b.rewrite m)
    else if !H.enabled then .again b
    else if headerType b.here = perfRecordSample then
      match H.eventConvert b.here with
      | (none, m) => .again (b.rewrite m)
      | (some _, m) => .done { b.rewrite m with yielded := b.yielded ++ [record] } (some record)
    else .done { b with yielded := b.yielded ++ [record] } (some record)
  else .done b none

/-- `block_read_event` from `tcp_retry` to the next `goto` or `return`. With a block that
`read_init` has freed it goes on in memory that may hold anything; here it stops. -/
def blockReadPass (H : Handler) (init : Bool) (b : Block) : Pass Block (Option (List UInt8)) :=
  match b.consume.fill init with
  | (b', false) => .done b' none
  | (b', true) => if b'.freed then .done b' none else b'.take H

end BlockRead

section File

/-- `handle_file_event`: `requests` records each `fread` as (bytes asked for, room left). -/
structure FileRead where
  file : List UInt8
  eventCopy : List UInt8
  i : Nat
  requests : List (Nat × Nat)
  log : List (List UInt8)

/-- The C expression `event->header.size-len` converted to `size_t`. -/
def sizeT (n len : Nat) : Nat := (n + 2 ^ 64 - len) % 2 ^ 64

def FileRead.fread (f : FileRead) (off n : Nat) : FileRead × Nat :=
  ({ f with file := f.file.drop n, eventCopy := blit f.eventCopy off (f.file.take n),
            requests := f.requests ++ [(n, bufLen - off)] }, (f.file.take n).length)

/-- The loop body from `if (len != event->header.size)` on. -/
def FileRead.settle (H : Handler) (f : FileRead) (len : Nat) : Pass FileRead Bool :=
  if len = headerSize f.eventCopy then
    match H.processEvent f.eventCopy with
    | none => .done { f with log := f.log ++ [f.eventCopy.take len] } true
    | some m => .again
        { f with eventCopy := m, i := f.i + 1, log := f.log ++ [f.eventCopy.take len] }
  else .done f false

def handleFilePass (H : Handler) (f : FileRead) : Pass FileRead Bool :=
  if f.i < 64 then
    let (f₁, len₁) := f.fread 0 headerLen
    let (f₂, len₂) := if len₁ = headerLen then
        f₁.fread headerLen (sizeT (headerSize f₁.eventCopy) headerLen) else (f₁, 0)
    f₂.settle H (len₁ + len₂)
  else .done f true

end File

end PerfProf.EventSpread
