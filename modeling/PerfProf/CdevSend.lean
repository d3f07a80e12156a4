import PerfProf.TcpSend

/-! The sending side of a character device in event-spread.c. `block_broadcast` and
`handle_cdev_event` call each other: a message that does not fit flushes the buffer,
and a flush that makes room broadcasts the loss record. -/
namespace PerfProf.CdevSend
open PerfProf.Loop PerfProf.Circ PerfProf.Outbox PerfProf.EventSpread
open PerfProf.TcpSend (Answer lostRecord lostLen)

/-- `PERF_RECORD_TP` as `cdev_write_header` sends it, in three pieces. Its `header.size`
counts all of them in 16 bits. -/
structure Header where
  record : List UInt8
  sys : List UInt8
  name : List UInt8
  fits : record.length + sys.length + name.length < bufLen

/-- `out`: the device is polled for `EPOLLOUT`. `written` is what the device has taken
since it was opened. -/
structure Cdev where
  connected : Bool
  lost : Nat
  buf : Nat → UInt8
  head : Nat
  tail : Nat
  out : Bool
  answers : List Answer
  written : List UInt8
  history : List (Entry UInt8)

namespace Cdev

def cnt (c : Cdev) : Nat := Circ.cnt c.head c.tail bufLen

def space (c : Cdev) : Nat := Circ.space c.head c.tail bufLen

/-- The copy of `block_broadcast`, in two parts. -/
def copy (c : Cdev) (bytes : List UInt8) : Cdev :=
  let k := min bytes.length (spaceToEnd c.head c.tail bufLen)
  { c with
    buf := memcpy (memcpy c.buf c.head (bytes.take k)) 0 (bytes.drop k)
    head := (c.head + bytes.length) % bufLen }

/-- `block_broadcast` on a connected device, after its flush. -/
def enqueue (c : Cdev) (e : Entry UInt8) : Cdev :=
  let add := c.cnt = 0
  if (e.bytes lostRecord).length ≤ c.space then
    let c := { c.copy (e.bytes lostRecord) with history := c.history ++ [e] }
    if add then { c with out := true } else c
  else
    { c with lost := c.lost + 1, history := c.history ++ [.dropped (e.bytes lostRecord)] }

/-- `block_broadcast`; `flush` is the call of `handle_cdev_event`. -/
def broadcastVia (flush : Cdev → Cdev) (c : Cdev) (e : Entry UInt8) : Cdev :=
  if c.connected then
    (if c.space < (e.bytes lostRecord).length then flush c else c).enqueue e
  else c

/-- `write(fd, buf + tail, n)` -/
def writeCall (c : Cdev) (n : Nat) : Nat × Cdev :=
  let wr := (c.answers.headD .again).taken n
  (wr, { c with
    answers := c.answers.tail
    written := c.written ++ (cells c.buf c.tail n).take wr })

/-- One round of the `retry` loop. The loss record goes out through `block_broadcast`. -/
def afterWrite (flush : Cdev → Cdev) (c : Cdev) (wr : Nat) : Cdev :=
  let c := { c with tail := (c.tail + wr) % bufLen }
  if 0 < c.lost ∧ lostLen ≤ wr then { c.broadcastVia flush (.lost c.lost) with lost := 0 } else c

/-- `retry:` in `handle_cdev_event`, `EPOLLOUT` on a connected device. -/
def retry : Nat → Cdev → Cdev
  | 0, c => c
  | n+1, c =>
    let toEnd := cntToEnd c.head c.tail bufLen
    if toEnd = 0 then { c with out := false }
    else
      let (wr, c) := c.writeCall toEnd
      if wr = 0 then c else retry n (c.afterWrite (retry n) wr)

/-- Every round but the last uses up an answer. -/
def flush (c : Cdev) : Cdev := retry (c.answers.length + 1) c

def blockBroadcast (c : Cdev) (msg : List UInt8) : Cdev := c.broadcastVia flush (.queued msg)

/-- `cdev_write_header` up to `prof_dev_flush`. -/
def writeHeader (c : Cdev) : Option Header → Cdev
  | none => c
  | some h => ((c.blockBroadcast h.record).blockBroadcast h.sys).blockBroadcast h.name

/-- `EPOLLOUT`. `events` are broadcast by the `prof_dev_flush` of `cdev_write_header`. -/
def handleOut (c : Cdev) (header : Option Header) (events : List (List UInt8)) : Cdev :=
  if c.connected then c.flush
  else
    let c := { c with connected := true }.writeHeader header
    (if header.isSome then events.foldl blockBroadcast c else c).flush

/-- `EPOLLHUP`; `none`: the device cannot be opened again and the block is freed. -/
def handleHup (c : Cdev) (reopened : Bool) : Option Cdev :=
  let c := { c with head := 0, tail := 0, lost := 0, written := [], history := [] }
  if c.connected then
    if reopened then some { c with connected := false, out := true } else none
  else some c

end Cdev

inductive Op where
  | broadcast (msg : List UInt8)
  | out (events : List (List UInt8))
  | hup (reopened : Bool)

def step (header : Option Header) (c : Cdev) : Op → Option Cdev
  | .broadcast msg => some (c.blockBroadcast msg)
  | .out events => some (c.handleOut header events)
  | .hup reopened => c.handleHup reopened

def run (header : Option Header) (ops : List Op) (c : Cdev) : Option Cdev :=
  runs (step header) ops c

/-- `block_new` -/
def opened (buf : Nat → UInt8) (answers : List Answer) : Cdev :=
  { connected := false, lost := 0, buf := buf, head := 0, tail := 0, out := true,
    answers := answers, written := [], history := [] }

section Fuel
variable {c : Cdev} {f : Cdev → Cdev}

theorem Cdev.enqueue_answers (c : Cdev) (e : Entry UInt8) : (c.enqueue e).answers = c.answers := by
  simp only [Cdev.enqueue, Cdev.copy]
  split_ifs
  · rfl
  · rfl
  · rfl

theorem Cdev.afterWrite_answers (wr : Nat) (hf : ∀ d, (f d).answers.length ≤ d.answers.length) :
    (c.afterWrite f wr).answers.length ≤ c.answers.length := by
  simp only [Cdev.afterWrite, Cdev.broadcastVia]
  split_ifs
  · rw [Cdev.enqueue_answers]
    exact hf _
  · rw [Cdev.enqueue_answers]
  · exact Nat.le_refl _
  · exact Nat.le_refl _

theorem Cdev.retry_answers (n : Nat) (c : Cdev) :
    (Cdev.retry n c).answers.length ≤ c.answers.length := by
  induction n generalizing c with
  | zero => exact Nat.le_refl _
  | succ n ih =>
    have htail : (c.writeCall (cntToEnd c.head c.tail bufLen)).2.answers.length ≤
        c.answers.length := by
      simp [Cdev.writeCall]
    rw [Cdev.retry]
    simp only
    split_ifs
    · exact Nat.le_refl _
    · exact htail
    · exact (ih _).trans ((Cdev.afterWrite_answers _ ih).trans htail)

/-- The loop ends by itself: beyond the number of answers the fuel makes no difference. -/
theorem Cdev.retry_eq_flush {n : Nat} (hn : c.answers.length < n) : Cdev.retry n c = c.flush := by
  suffices h : ∀ n m c, c.answers.length < n → c.answers.length < m →
      Cdev.retry n c = Cdev.retry m c from h n _ c hn (Nat.lt_succ_self _)
  intro n
  induction n with
  | zero => intro m c hn; omega
  | succ n ih =>
    intro m c hn hm
    obtain ⟨m, rfl⟩ : ∃ k, m = k+1 := ⟨m-1, by omega⟩
    rw [Cdev.retry, Cdev.retry]
    simp only
    split_ifs with h0 hwr
    · rfl
    · rfl
    · have hlt : (c.writeCall (cntToEnd c.head c.tail bufLen)).2.answers.length <
          c.answers.length := by
        cases ha : c.answers with
        | nil => simp [Cdev.writeCall, ha, TcpSend.Answer.taken] at hwr
        | cons a rest => simp [Cdev.writeCall, ha]
      generalize (c.writeCall (cntToEnd c.head c.tail bufLen)).2 = d at hlt
      generalize (c.writeCall (cntToEnd c.head c.tail bufLen)).1 = wr
      have hround : d.afterWrite (Cdev.retry n) wr = d.afterWrite (Cdev.retry m) wr := by
        simp only [Cdev.afterWrite, Cdev.broadcastVia]
        rw [ih m { d with tail := (d.tail + wr) % bufLen } (by simp only; omega)
          (by simp only; omega)]
      have hle := Cdev.afterWrite_answers (c := d) wr (Cdev.retry_answers m)
      rw [hround]
      exact ih m _ (by omega) (by omega)

end Fuel

structure Fifo (c : Cdev) (q : List UInt8) : Prop where
  holds : Holds c.buf bufLen c.head c.tail q
  stream_eq : c.written ++ q = stream lostRecord c.history
  counted : Counted c.history
  pending_eq : pending c.history = c.lost
  armed : q ≠ [] → c.out = true

section Spec
variable {c : Cdev} {q msg : List UInt8} {e : Entry UInt8} {wr : Nat}

theorem Fifo.space_eq (h : Fifo c q) : c.space = bufLen - 1 - q.length := h.holds.space_eq

theorem Fifo.cnt_eq (h : Fifo c q) : c.cnt = q.length := h.holds.count

theorem Fifo.copy (h : Holds c.buf bufLen c.head c.tail q) {bytes : List UInt8}
    (hfit : bytes.length ≤ c.space) :
    Holds (c.copy bytes).buf bufLen (c.copy bytes).head c.tail (q ++ bytes) := by
  have hs : c.space = bufLen - 1 - q.length := h.space_eq
  have hh := h.head_lt
  refine h.push hfit (Nat.min_le_left _ _) ?_ ?_
  · rw [h.spaceToEnd_eq]
    omega
  · rw [h.spaceToEnd_eq]
    omega

theorem Cdev.enqueue_eq (hfit : (e.bytes lostRecord).length ≤ c.space) :
    c.enqueue e = { c.copy (e.bytes lostRecord) with
      history := c.history ++ [e], out := c.out || decide (c.cnt = 0) } := by
  rw [Cdev.enqueue, if_pos hfit]
  by_cases h0 : c.cnt = 0
  · simp [h0]
  · simp [h0, Cdev.copy]

theorem Cdev.enqueue_connected (hfit : (e.bytes lostRecord).length ≤ c.space) :
    (c.enqueue e).connected = c.connected := by
  rw [Cdev.enqueue_eq hfit]
  rfl

theorem Cdev.enqueue_history (hfit : (e.bytes lostRecord).length ≤ c.space) :
    (c.enqueue e).history = c.history ++ [e] := by
  rw [Cdev.enqueue_eq hfit]

/-- An entry that fits is queued whole. -/
theorem Fifo.enqueue (h : Fifo c q) (hcount : ∀ n, e = .lost n → n = c.lost)
    (hfit : (e.bytes lostRecord).length ≤ c.space) :
    Fifo { c.enqueue e with lost := e.count c.lost } (q ++ e.bytes lostRecord) := by
  rw [Cdev.enqueue_eq hfit]
  refine ⟨Fifo.copy h.holds hfit, ?_, ?_, ?_, fun _ => ?_⟩
  · simp [Cdev.copy, ← h.stream_eq]
  · refine counted_snoc.mpr ⟨h.counted, fun n hn => ?_⟩
    rw [h.pending_eq]
    exact hcount n hn
  · simp [h.pending_eq]
  · by_cases hq : q = []
    · simp [h.cnt_eq, hq]
    · simp [h.armed hq]

theorem Fifo.drop (h : Fifo c q) (hfit : ¬ (e.bytes lostRecord).length ≤ c.space) :
    Fifo (c.enqueue e) q := by
  rw [Cdev.enqueue, if_neg hfit]
  refine ⟨h.holds, ?_, ?_, ?_, h.armed⟩
  · simpa [Entry.bytes] using h.stream_eq
  · exact counted_snoc.mpr ⟨h.counted, by rintro n ⟨⟩⟩
  · simp [Entry.count, h.pending_eq]

/-- What every operation on a connected device does to the books: the messages `ms` join. -/
structure Grows (c c' : Cdev) (ms : List (List UInt8)) : Prop where
  connected_eq : c'.connected = c.connected
  history_prefix : c.history <+: c'.history
  messages_eq : messages c'.history = messages c.history ++ ms

theorem Grows.refl (c : Cdev) : Grows c c [] := ⟨rfl, List.prefix_rfl, by simp⟩

theorem Grows.trans {c₁ c₂ : Cdev} {ms ms' : List (List UInt8)} (h₁ : Grows c c₁ ms)
    (h₂ : Grows c₁ c₂ ms') : Grows c c₂ (ms ++ ms') where
  connected_eq := h₂.connected_eq.trans h₁.connected_eq
  history_prefix := h₁.history_prefix.trans h₂.history_prefix
  messages_eq := by rw [h₂.messages_eq, h₁.messages_eq, List.append_assoc]

theorem Cdev.enqueue_grows (c : Cdev) (msg : List UInt8) :
    Grows c (c.enqueue (.queued msg)) [msg] := by
  by_cases hfit : (Entry.bytes lostRecord (.queued msg)).length ≤ c.space
  · rw [Cdev.enqueue_eq hfit]
    exact ⟨rfl, List.prefix_append _ _, by simp [messages_snoc, Entry.message]⟩
  · rw [Cdev.enqueue, if_neg hfit]
    exact ⟨rfl, List.prefix_append _ _, by simp [messages_snoc, Entry.message, Entry.bytes]⟩

theorem Cdev.enqueue_queued_lost (hfit : msg.length ≤ c.space) :
    (c.enqueue (.queued msg)).lost = c.lost := by
  rw [Cdev.enqueue_eq (e := .queued msg) hfit]
  rfl

theorem Fifo.enqueue_queued (h : Fifo c q) (msg : List UInt8) :
    ∃ q', Fifo (c.enqueue (.queued msg)) q' := by
  by_cases hfit : msg.length ≤ c.space
  · have := h.enqueue (e := .queued msg) (by rintro n ⟨⟩) hfit
    rw [Entry.count, ← Cdev.enqueue_queued_lost hfit] at this
    exact ⟨_, this⟩
  · exact ⟨q, h.drop hfit⟩

theorem Fifo.writeCall (h : Fifo c q) {n : Nat} (hn : n ≤ q.length) (hend : c.tail + n ≤ bufLen) :
    Fifo { (c.writeCall n).2 with tail := (c.tail + (c.writeCall n).1) % bufLen }
      (q.drop (c.writeCall n).1) ∧ (c.writeCall n).1 ≤ n := by
  have hcells := h.holds.cells_eq hn hend
  have hwr : (c.writeCall n).1 ≤ n := TcpSend.Answer.taken_le _ n
  refine ⟨⟨h.holds.pop (by omega), ?_, h.counted, h.pending_eq, fun hne => ?_⟩, hwr⟩
  · simp only [Cdev.writeCall, hcells, List.append_assoc, ← h.stream_eq] at hwr ⊢
    rw [List.take_take, Nat.min_eq_left hwr, List.take_append_drop]
  · refine h.armed fun hq => hne ?_
    rw [hq, List.drop_nil]

theorem Cdev.afterWrite_reports (flush : Cdev → Cdev) (hc : c.connected = true)
    (hl : 0 < c.lost ∧ lostLen ≤ wr) (hfit : (Entry.bytes lostRecord (.lost c.lost)).length ≤
      Cdev.space { c with tail := (c.tail + wr) % bufLen }) :
    c.afterWrite flush wr =
      { Cdev.enqueue { c with tail := (c.tail + wr) % bufLen } (.lost c.lost) with lost := 0 } := by
  simp only [Cdev.afterWrite]
  rw [if_pos hl, Cdev.broadcastVia, if_pos hc, if_neg (by omega)]

/-- What one round of the `retry` loop does to a buffer that holds `q`. After a write of at
least `sizeof(struct perf_record_lost)` bytes the loss record fits, so its broadcast does not
flush again. -/
inductive Round (c : Cdev) (q : List UInt8) (n wr : Nat) : Prop where
  | empty (hq : q = []) (heq : Cdev.retry (n+1) c = { c with out := false })
  | blocked (c₁ : Cdev) (hwr : wr = 0) (heq : Cdev.retry (n+1) c = c₁) (hf : Fifo c₁ q)
    (hc : c₁.connected = c.connected) (hh : c₁.history = c.history) (hl : c₁.lost = c.lost)
  | silent (c₁ : Cdev) (hwr : 0 < wr) (heq : Cdev.retry (n+1) c = Cdev.retry n c₁)
    (hf : Fifo c₁ (q.drop wr)) (hc : c₁.connected = c.connected)
    (hh : c₁.history = c.history) (hl : c₁.lost = c.lost) (hno : ¬ (0 < c.lost ∧ lostLen ≤ wr))
    (ht : c₁.tail = (c.tail + wr) % bufLen) (ha : c₁.answers = c.answers.tail)
  | reported (c₁ : Cdev) (heq : Cdev.retry (n+1) c = Cdev.retry n c₁)
    (hf : Fifo c₁ (q.drop wr ++ lostRecord c.lost)) (hc : c₁.connected = c.connected)
    (hh : c₁.history = c.history ++ [.lost c.lost]) (hl : c₁.lost = 0)
    (hyes : 0 < c.lost ∧ lostLen ≤ wr)

theorem Fifo.round (h : Fifo c q) (hc : c.connected = true) (n : Nat) :
    Round c q n ((c.answers.headD .again).taken (min q.length (bufLen - c.tail))) := by
  have hend := h.holds.cntToEnd_eq
  have htail := h.holds.tail_lt
  have hlt := h.holds.length_lt
  obtain ⟨hw, hle⟩ := h.writeCall (n := cntToEnd c.head c.tail bufLen) (by omega) (by omega)
  rw [← hend]
  change Round c q n (c.writeCall (cntToEnd c.head c.tail bufLen)).1
  have heq : Cdev.retry (n+1) c = if cntToEnd c.head c.tail bufLen = 0 then { c with out := false }
      else if (c.writeCall (cntToEnd c.head c.tail bufLen)).1 = 0 then
        (c.writeCall (cntToEnd c.head c.tail bufLen)).2
      else Cdev.retry n ((c.writeCall (cntToEnd c.head c.tail bufLen)).2.afterWrite (Cdev.retry n)
        (c.writeCall (cntToEnd c.head c.tail bufLen)).1) := rfl
  generalize hwr : (c.writeCall (cntToEnd c.head c.tail bufLen)).1 = wr at heq hw hle
  split_ifs at heq with h0 hz
  · refine .empty ?_ heq
    rw [← List.length_eq_zero_iff]
    omega
  · rw [hz, Nat.add_zero, Nat.mod_eq_of_lt htail, List.drop_zero] at hw
    exact .blocked _ hz heq hw rfl rfl rfl
  · by_cases hl : 0 < c.lost ∧ lostLen ≤ wr
    · have hfit : (Entry.bytes lostRecord (.lost c.lost)).length ≤ Cdev.space
          { (c.writeCall (cntToEnd c.head c.tail bufLen)).2 with
            tail := (c.tail + wr) % bufLen } := by
        rw [hw.space_eq, Entry.bytes, TcpSend.length_lostRecord, List.length_drop]
        omega
      have hafter := Cdev.afterWrite_reports (c := (c.writeCall _).2) (Cdev.retry n) hc hl hfit
      have hf := hw.enqueue (e := .lost c.lost) (by rintro n ⟨⟩; rfl) hfit
      rw [hafter] at heq
      exact .reported _ heq hf (Cdev.enqueue_connected hfit) (Cdev.enqueue_history hfit) rfl hl
    · have hafter : (c.writeCall (cntToEnd c.head c.tail bufLen)).2.afterWrite (Cdev.retry n) wr =
          { (c.writeCall (cntToEnd c.head c.tail bufLen)).2 with
            tail := (c.tail + wr) % bufLen } := if_neg hl
      rw [hafter] at heq
      exact .silent _ (by omega) heq hw rfl rfl rfl hl rfl rfl

/-- A flush keeps the books, whatever the device answers. -/
theorem Fifo.retry (h : Fifo c q) (hc : c.connected = true) (n : Nat) :
    (∃ q', Fifo (Cdev.retry n c) q') ∧ Grows c (Cdev.retry n c) [] := by
  induction n generalizing c q with
  | zero => exact ⟨⟨q, h⟩, Grows.refl c⟩
  | succ n ih =>
    cases h.round hc n with
    | empty hq heq =>
      rw [heq]
      exact ⟨⟨q, h.holds, h.stream_eq, h.counted, h.pending_eq, fun hne => absurd hq hne⟩,
        rfl, List.prefix_rfl, by simp⟩
    | blocked c₁ _ heq hf hc₁ hh _ =>
      rw [heq]
      exact ⟨⟨q, hf⟩, hc₁, by rw [hh], by simp [hh]⟩
    | silent c₁ _ heq hf hc₁ hh _ _ _ _ =>
      rw [heq]
      obtain ⟨hf', hg⟩ := ih hf (hc₁.trans hc)
      have hsame : Grows c c₁ [] := ⟨hc₁, by rw [hh], by simp [hh]⟩
      exact ⟨hf', hsame.trans hg⟩
    | reported c₁ heq hf hc₁ hh _ _ =>
      rw [heq]
      obtain ⟨hf', hg⟩ := ih hf (hc₁.trans hc)
      have hsame : Grows c c₁ [] :=
        ⟨hc₁, by rw [hh]; exact List.prefix_append _ _, by simp [hh, messages_snoc, Entry.message]⟩
      exact ⟨hf', hsame.trans hg⟩

theorem Fifo.flush (h : Fifo c q) (hc : c.connected = true) :
    (∃ q', Fifo c.flush q') ∧ Grows c c.flush [] :=
  h.retry hc _

theorem Fifo.blockBroadcast (h : Fifo c q) (hc : c.connected = true) (msg : List UInt8) :
    (∃ q', Fifo (c.blockBroadcast msg) q') ∧ Grows c (c.blockBroadcast msg) [msg] := by
  rw [Cdev.blockBroadcast, Cdev.broadcastVia, if_pos hc]
  split_ifs
  · obtain ⟨⟨q₁, hf⟩, hg⟩ := h.flush hc
    exact ⟨hf.enqueue_queued msg, hg.trans (Cdev.enqueue_grows _ msg)⟩
  · exact ⟨h.enqueue_queued msg, c.enqueue_grows msg⟩

theorem Fifo.broadcasts (h : Fifo c q) (hc : c.connected = true) (events : List (List UInt8)) :
    (∃ q', Fifo (events.foldl Cdev.blockBroadcast c) q') ∧
      Grows c (events.foldl Cdev.blockBroadcast c) events := by
  induction events generalizing c q with
  | nil => exact ⟨⟨q, h⟩, Grows.refl c⟩
  | cons msg events ih =>
    obtain ⟨⟨q₁, hf⟩, hg⟩ := h.blockBroadcast hc msg
    obtain ⟨hf', hg'⟩ := ih hf (hg.connected_eq.trans hc)
    exact ⟨hf', hg.trans hg'⟩

/-- A message that fits is queued without a flush. -/
theorem Fifo.blockBroadcast_fits (h : Fifo c q) (msg : List UInt8) (hc : c.connected = true)
    (hfit : msg.length < bufLen - q.length) :
    Fifo (c.blockBroadcast msg) (q ++ msg) ∧ (c.blockBroadcast msg).connected = true ∧
      (c.blockBroadcast msg).history = c.history ++ [.queued msg] := by
  have hs := h.space_eq
  have hroom : (Entry.bytes lostRecord (.queued msg)).length ≤ c.space := by
    rw [Entry.bytes]
    omega
  have heq : c.blockBroadcast msg = c.enqueue (.queued msg) := by
    rw [Cdev.blockBroadcast, Cdev.broadcastVia, if_pos hc, if_neg (by omega)]
  have hf := h.enqueue (e := .queued msg) (by rintro n ⟨⟩) hroom
  rw [Entry.count, ← Cdev.enqueue_queued_lost hroom] at hf
  rw [heq]
  exact ⟨hf, (Cdev.enqueue_connected hroom).trans hc, Cdev.enqueue_history hroom⟩

/-- On connection the buffer is empty and the header is queued whole. -/
theorem Fifo.writeHeader (h : Fifo c []) (hc : c.connected = true) (hh : c.history = [])
    (header : Option Header) : (∃ q, Fifo (c.writeHeader header) q) ∧
      (c.writeHeader header).connected = true ∧
      (c.writeHeader header).history = header.elim []
        fun p => [.queued p.record, .queued p.sys, .queued p.name] := by
  cases header with
  | none => exact ⟨⟨_, h⟩, hc, hh⟩
  | some p =>
    have hfits := p.fits
    obtain ⟨hf₁, hc₁, hh₁⟩ := h.blockBroadcast_fits p.record hc (by simp; omega)
    obtain ⟨hf₂, hc₂, hh₂⟩ := hf₁.blockBroadcast_fits p.sys hc₁ (by simp; omega)
    obtain ⟨hf₃, hc₃, hh₃⟩ := hf₂.blockBroadcast_fits p.name hc₂ (by simp; omega)
    refine ⟨⟨_, hf₃⟩, hc₃, ?_⟩
    rw [Cdev.writeHeader, hh₃, hh₂, hh₁, hh]
    rfl

end Spec

/-- The messages handed to `block_broadcast` since the device was last connected, the pieces
of the header among them, after one more operation. -/
def given (header : Option Header) (connected : Bool) (ms : List (List UInt8)) :
    Op → Bool × List (List UInt8)
  | .broadcast msg => (connected, if connected then ms ++ [msg] else ms)
  | .out events =>
    (true, if connected then ms else header.elim [] fun p => [p.record, p.sys, p.name] ++ events)
  | .hup _ => (false, [])

def givenAll (header : Option Header) :
    List Op → Bool × List (List UInt8) → Bool × List (List UInt8)
  | [], g => g
  | op :: ops, g => givenAll header ops (given header g.1 g.2 op)

/-- A device that is not connected has an empty buffer; a connected one has sent its header
first. -/
structure Reached (header : Option Header) (c : Cdev) (g : Bool × List (List UInt8)) : Prop where
  fifo : ∃ q, Fifo c q
  connected_eq : c.connected = g.1
  messages_eq : messages c.history = g.2
  header_first : c.connected = true → (header.elim []
    fun p => [Entry.queued p.record, .queued p.sys, .queued p.name]) <+: c.history
  off : c.connected = false → Fifo c [] ∧ c.history = []

section Run
variable {header : Option Header} {c c' : Cdev} {g : Bool × List (List UInt8)}

theorem Reached.grow (h : Reached header c g) {ms : List (List UInt8)}
    (hc : c.connected = true) (hf : ∃ q, Fifo c' q) (hg : Grows c c' ms) :
    Reached header c' (g.1, g.2 ++ ms) where
  fifo := hf
  connected_eq := hg.connected_eq.trans h.connected_eq
  messages_eq := by rw [hg.messages_eq, h.messages_eq]
  header_first := fun _ => (h.header_first hc).trans hg.history_prefix
  off := fun hoff => by
    rw [hg.connected_eq, hc] at hoff
    cases hoff

theorem Reached.flush (h : Reached header c g) (hc : c.connected = true) :
    Reached header c.flush g := by
  obtain ⟨q, hf⟩ := h.fifo
  obtain ⟨hf', hg⟩ := hf.flush hc
  simpa using h.grow hc hf' hg

theorem Reached.broadcast (h : Reached header c g) (msg : List UInt8) :
    Reached header (c.blockBroadcast msg) (given header g.1 g.2 (.broadcast msg)) := by
  rw [given, ← h.connected_eq]
  by_cases hc : c.connected = true
  · obtain ⟨q, hf⟩ := h.fifo
    obtain ⟨hf', hg⟩ := hf.blockBroadcast hc msg
    rw [if_pos hc, h.connected_eq]
    exact h.grow hc hf' hg
  · rw [if_neg hc, h.connected_eq, Cdev.blockBroadcast, Cdev.broadcastVia, if_neg hc]
    exact h

theorem Reached.out (h : Reached header c g) (events : List (List UInt8)) :
    Reached header (c.handleOut header events) (given header g.1 g.2 (.out events)) := by
  rw [given, ← h.connected_eq, Cdev.handleOut]
  by_cases hc : c.connected = true
  · rw [if_pos hc, if_pos hc]
    have hg : g = (true, g.2) := Prod.ext (h.connected_eq.symm.trans hc) rfl
    rw [← hg]
    exact h.flush hc
  · rw [if_neg hc, if_neg hc]
    obtain ⟨hoff, hnil⟩ := h.off (by simpa using hc)
    have hon : Fifo { c with connected := true } [] :=
      ⟨hoff.holds, hoff.stream_eq, hoff.counted, hoff.pending_eq, hoff.armed⟩
    obtain ⟨⟨q₁, hf₁⟩, hc₁, hh₁⟩ := hon.writeHeader rfl hnil header
    have hstart : Reached header (Cdev.writeHeader { c with connected := true } header)
        (true, header.elim [] fun p => [p.record, p.sys, p.name]) := by
      refine ⟨⟨q₁, hf₁⟩, hc₁, ?_, fun _ => by rw [hh₁], fun h => by rw [hc₁] at h; cases h⟩
      rw [hh₁]
      cases header <;> rfl
    cases header with
    | none => exact hstart.flush hc₁
    | some p =>
      obtain ⟨hf₂, hg₂⟩ := hf₁.broadcasts hc₁ events
      exact (hstart.grow hc₁ hf₂ hg₂).flush (hg₂.connected_eq.trans hc₁)

theorem reached_hup {reopened : Bool} (hout : c.handleHup reopened = some c') :
    Reached header c' (given header g.1 g.2 (.hup reopened)) := by
  have hreset (connected out : Bool) (hoff : connected = false) :
      Reached header { c with
        head := 0, tail := 0, lost := 0, written := [], history := [],
        connected := connected, out := out } (false, []) := by
    have hf : Fifo { c with
        head := 0, tail := 0, lost := 0, written := [], history := [],
        connected := connected, out := out } [] :=
      ⟨Holds.empty c.buf (by decide), rfl, counted_nil, rfl, fun hne => absurd rfl hne⟩
    exact ⟨⟨[], hf⟩, hoff, rfl, fun hon => (by rw [hoff] at hon; cases hon),
      fun _ => ⟨hf, rfl⟩⟩
  simp only [Cdev.handleHup] at hout
  split_ifs at hout with hc hr
  · cases hout
    exact hreset false true rfl
  · cases hout
    exact hreset c.connected c.out (by simpa using hc)

theorem Reached.step (h : Reached header c g) {op : Op}
    (hstep : CdevSend.step header c op = some c') :
    Reached header c' (given header g.1 g.2 op) := by
  cases op with
  | broadcast msg =>
    cases hstep
    exact h.broadcast msg
  | out events =>
    cases hstep
    exact h.out events
  | hup reopened => exact reached_hup hstep

theorem Reached.run (h : Reached header c g) {ops : List Op}
    (hrun : CdevSend.run header ops c = some c') : Reached header c' (givenAll header ops g) := by
  induction ops generalizing c g with
  | nil =>
    cases hrun
    exact h
  | cons op ops ih =>
    obtain ⟨c₁, hstep, hrest⟩ := Option.bind_eq_some_iff.mp hrun
    exact ih (h.step hstep) hrest

theorem run_isSome {ops : List Op} (hops : .hup false ∉ ops) (c : Cdev) :
    (CdevSend.run header ops c).isSome := by
  induction ops generalizing c with
  | nil => rfl
  | cons op ops ih =>
    have hrest : .hup false ∉ ops := fun h => hops (List.mem_cons_of_mem _ h)
    cases op with
    | broadcast msg => exact ih hrest _
    | out events => exact ih hrest _
    | hup reopened =>
      cases reopened with
      | false => exact absurd (List.mem_cons_self ..) hops
      | true =>
        obtain ⟨c₁, hc₁⟩ : ∃ c₁, c.handleHup true = some c₁ := by
          simp only [Cdev.handleHup]
          split_ifs
          · exact ⟨_, rfl⟩
          · exact ⟨_, rfl⟩
        rw [CdevSend.run, runs, CdevSend.step, hc₁]
        exact ih hrest c₁

theorem opened_reached (buf : Nat → UInt8) (answers : List Answer) :
    Reached header (opened buf answers) (false, []) := by
  have hf : Fifo (opened buf answers) [] :=
    ⟨Holds.empty buf (by decide), rfl, counted_nil, rfl, fun h => absurd rfl h⟩
  exact ⟨⟨[], hf⟩, rfl, rfl, fun h => (by cases h), fun _ => ⟨hf, rfl⟩⟩

end Run

/-- The send buffer of a device is a queue of whole messages. What the device has taken since
it was connected and what the buffer holds make up the stream of the header, the
messages queued and the losses reported; every message is queued or counted. -/
theorem cdev_send_fifo (buf : Nat → UInt8) (answers : List Answer) (header : Option Header)
    (ops : List Op) :
    (.hup false ∉ ops → (run header ops (opened buf answers)).isSome) ∧
    ∀ c, run header ops (opened buf answers) = some c →
      c.written <+: stream lostRecord c.history ∧
      (∃ q, Holds c.buf bufLen c.head c.tail q ∧
        c.written ++ q = stream lostRecord c.history) ∧
      (c.connected = true → (header.elim []
        fun p => [Entry.queued p.record, .queued p.sys, .queued p.name]) <+: c.history) ∧
      (c.connected, messages c.history) = givenAll header ops (false, []) ∧
      drops c.history = reports c.history + c.lost ∧
      c.head < bufLen ∧ c.tail < bufLen ∧
      (c.cnt ≠ 0 → c.out = true) := by
  refine ⟨fun hops => run_isSome hops _, fun c hrun => ?_⟩
  have h := (opened_reached buf answers).run hrun
  obtain ⟨q, hf⟩ := h.fifo
  refine ⟨?_, ⟨q, hf.holds, hf.stream_eq⟩, h.header_first, ?_, ?_, hf.holds.head_lt,
    hf.holds.tail_lt, fun hne => ?_⟩
  · rw [← hf.stream_eq]
    exact List.prefix_append _ _
  · rw [h.connected_eq, h.messages_eq]
  · rw [hf.counted.drops_eq, hf.pending_eq]
  · refine hf.armed fun hq => hne ?_
    rw [hf.cnt_eq, hq, List.length_nil]

end PerfProf.CdevSend
