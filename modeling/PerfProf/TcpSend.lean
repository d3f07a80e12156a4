import PerfProf.Circ
import PerfProf.Outbox
import PerfProf.EventSpread

/-! The sending side of net.c: `tcp_send` queues whole messages in a circular buffer, or
counts them as lost, and `buf_send` hands the buffer to the socket. The socket is
the list of the answers it will give; a client that meets a hard error is gone. -/
namespace PerfProf.TcpSend
open PerfProf.Loop PerfProf.Circ PerfProf.Outbox PerfProf.EventSpread

/-- `n` in `k` bytes, the low one first. -/
def le (k n : Nat) : List UInt8 := (List.range k).map fun i => UInt8.ofNat (n / 256 ^ i)

def perfRecordLost : Nat := 2

/-- `struct perf_record_lost` with `id = 0`: `type`, `misc`, `size`, `id`, `lost`. -/
def lostRecord (lost : Nat) : List UInt8 :=
  le 4 perfRecordLost ++ le 2 0 ++ le 2 24 ++ le 8 0 ++ le 8 lost

/-- `sizeof(struct perf_record_lost)` -/
def lostLen : Nat := 24

@[simp] theorem length_lostRecord (lost : Nat) : (lostRecord lost).length = lostLen := by
  simp [lostRecord, le, lostLen]

/-- What the socket makes of one `send`: it takes up to `k` bytes, or fails with `EAGAIN` or
with another error. -/
inductive Answer where
  | take (k : Nat)
  | again
  | error
deriving DecidableEq

def Answer.taken (n : Nat) : Answer → Nat
  | .take k => min k n
  | _ => 0

/-- One call of `send`: the bytes handed over, `MSG_MORE`, and how many were taken. -/
structure Call where
  bytes : List UInt8
  more : Bool
  taken : Nat
deriving DecidableEq

/-- `out` is the `EPOLLOUT` bit of `events`. -/
structure Client where
  buf : Nat → UInt8
  send : Nat
  write : Nat
  lost : Nat
  out : Bool
  answers : List Answer
  calls : List Call
  history : List (Entry UInt8)

inductive Ret where
  | ok
  | again
  | error
deriving DecidableEq

/-- What the socket has taken. -/
def wire (calls : List Call) : List UInt8 := calls.flatMap fun c => c.bytes.take c.taken

namespace Client

def bufCnt (c : Client) : Nat := cnt c.write c.send bufLen

def bufIdle (c : Client) : Nat := space c.write c.send bufLen

def bufIsEmpty (c : Client) : Bool := c.bufCnt = 0

/-- The second copy of `buf_write`, `if (len)`. -/
def bufCopy (c : Client) (bytes : List UInt8) : Client :=
  if bytes.length = 0 then c
  else { c with buf := memcpy c.buf c.write bytes, write := c.write + bytes.length }

def bufWrite (c : Client) (bytes : List UInt8) : Client :=
  if bufLen ≤ c.write + bytes.length then
    let n := bufLen - c.write
    bufCopy { c with buf := memcpy c.buf c.write (bytes.take n), write := 0 } (bytes.drop n)
  else bufCopy c bytes

/-- `send(fd, &buf[send], n, flags)` -/
def sendCall (c : Client) (n : Nat) (more : Bool) : Answer × Client :=
  let bytes := cells c.buf c.send n
  match c.answers with
  | [] => (.again, { c with calls := c.calls ++ [⟨bytes, more, 0⟩] })
  | .take k :: rest =>
    (.take (min k n),
      { c with answers := rest, calls := c.calls ++ [⟨bytes, more, min k n⟩] })
  | a :: rest => (a, { c with answers := rest, calls := c.calls ++ [⟨bytes, more, 0⟩] })

def advance (c : Client) (ret : Nat) : Client := { c with send := (c.send + ret) % bufLen }

/-- The end of `buf_send`, `// write lost event`. -/
def writeLost (c : Client) : Client :=
  if 0 < c.lost ∧ lostLen < c.bufIdle then
    { c.bufWrite (lostRecord c.lost) with lost := 0, history := c.history ++ [.lost c.lost] }
  else c

/-- `buf_send` from `if (len)` on. -/
def sendRest (c : Client) (len : Nat) : Ret × Client :=
  if len = 0 then (.ok, c.writeLost)
  else match c.sendCall len false with
    | (.error, c) => (.error, c)
    | (.again, c) => (.again, c)
    | (.take 0, c) => (.ok, c)
    | (.take (k+1), c) => (.ok, (c.advance (k+1)).writeLost)

def bufSend (c : Client) : Ret × Client :=
  let len := c.bufCnt
  if bufLen ≤ c.send + len then
    let n := bufLen - c.send
    match c.sendCall n (n != len) with
    | (.error, c) => (.error, c)
    | (.again, c) => (.again, c)
    | (.take 0, c) => (.ok, c)
    | (.take (k+1), c) =>
      if k+1 ≠ n then (.ok, c.advance (k+1)) else (c.advance (k+1)).sendRest (len - (k+1))
  else c.sendRest len

/-- `tcp_send` after its flush. -/
def enqueue (c : Client) (msg : List UInt8) : Client :=
  let add := c.bufIsEmpty
  if msg.length ≤ c.bufIdle then
    let c := { c.bufWrite msg with history := c.history ++ [.queued msg] }
    if add && !c.out then { c with out := true } else c
  else { c with lost := c.lost + 1, history := c.history ++ [.dropped msg] }

/-- `none`: a hard error, the client leaves the broadcast list. -/
def tcpSend (c : Client) (msg : List UInt8) : Option Client :=
  if c.bufIdle < msg.length then
    match c.bufSend with
    | (.error, _) => none
    | (_, c) => some (c.enqueue msg)
  else some (c.enqueue msg)

/-- `handle_inout` on `EPOLLOUT`; `none`: the client is closed by `handle_errhup`. -/
def handleOut (c : Client) : Option Client :=
  match c.bufSend with
  | (.error, _) => none
  | (.again, c) => some c
  | (.ok, c) => some (if c.bufIsEmpty then { c with out := false } else c)

end Client

inductive Op where
  | send (msg : List UInt8)
  | out
deriving DecidableEq

def Op.message : Op → Option (List UInt8)
  | .send msg => some msg
  | .out => none

def step (c : Client) : Op → Option Client
  | .send msg => c.tcpSend msg
  | .out => c.handleOut

def run (ops : List Op) (c : Client) : Option Client := runs step ops c

/-- A client that `handle_accept` has just set up. -/
def established (buf : Nat → UInt8) (answers : List Answer) : Client :=
  { buf := buf, send := 0, write := 0, lost := 0, out := false, answers := answers,
    calls := [], history := [] }

/-- The buffer holds `q`; what the socket has taken and then `q` make up the stream; and
every `send` was handed the bytes that come next in it. -/
structure Keeps (c : Client) (q : List UInt8) : Prop where
  holds : Holds c.buf bufLen c.write c.send q
  stream_eq : wire c.calls ++ q = stream lostRecord c.history
  handed : ∀ p call r, c.calls = p ++ call :: r →
    wire p ++ call.bytes <+: stream lostRecord c.history
  counted : Counted c.history
  pending_eq : pending c.history = c.lost

section Spec
variable {c c' : Client} {q : List UInt8}

theorem Keeps.cnt_eq (h : Keeps c q) : c.bufCnt = q.length := h.holds.count

theorem Keeps.idle_eq (h : Keeps c q) : c.bufIdle = bufLen - 1 - q.length := h.holds.space_eq

theorem Keeps.isEmpty_iff (h : Keeps c q) : c.bufIsEmpty = true ↔ q = [] := by
  simp [Client.bufIsEmpty, h.cnt_eq]

/-- Both branches of `buf_write` copy up to the end of the buffer first. -/
theorem Client.bufWrite_eq (c : Client) {bytes : List UInt8} (hw : c.write < bufLen)
    (hlen : bytes.length ≤ bufLen) : c.bufWrite bytes =
      { c with
        buf := memcpy (memcpy c.buf c.write (bytes.take (min bytes.length (bufLen - c.write)))) 0
          (bytes.drop (min bytes.length (bufLen - c.write)))
        write := (c.write + bytes.length) % bufLen } := by
  rw [mod_wrap (by omega)]
  by_cases hwrap : bufLen ≤ c.write + bytes.length
  · rw [Client.bufWrite, if_pos hwrap, if_neg (by omega), Nat.min_eq_right (by omega),
      Client.bufCopy]
    split
    · next hnil =>
      have hd : bytes.drop (bufLen - c.write) = [] := List.length_eq_zero_iff.mp hnil
      rw [List.length_drop] at hnil
      rw [hd, memcpy_nil, show c.write + bytes.length - bufLen = 0 by omega]
    · simp only [List.length_drop, Nat.zero_add]
      rw [show bytes.length - (bufLen - c.write) = c.write + bytes.length - bufLen by omega]
  · rw [Client.bufWrite, if_neg hwrap, if_pos (by omega), Nat.min_eq_left (by omega),
      List.take_length, List.drop_length, memcpy_nil, Client.bufCopy]
    split
    · next hnil =>
      rw [List.length_eq_zero_iff.mp hnil, memcpy_nil]
      rfl
    · rfl

theorem Holds.bufWrite (h : Holds c.buf bufLen c.write c.send q) {bytes : List UInt8}
    (hfit : bytes.length ≤ c.bufIdle) :
    Holds (c.bufWrite bytes).buf bufLen (c.bufWrite bytes).write c.send (q ++ bytes) := by
  have hw := h.head_lt
  have hlen : bytes.length ≤ bufLen := by
    have := h.space_eq
    simp only [Client.bufIdle] at hfit
    omega
  rw [c.bufWrite_eq hw hlen]
  refine h.push hfit (Nat.min_le_left _ _) ?_ ?_
  · omega
  · omega

/-- Queueing one more entry of the history. -/
theorem Keeps.write (h : Keeps c q) {e : Entry UInt8} {lost : Nat} (out : Bool)
    (hfit : (e.bytes lostRecord).length ≤ c.bufIdle) (hcount : ∀ n, e = .lost n → n = c.lost)
    (hlost : e.count c.lost = lost) :
    Keeps { c.bufWrite (e.bytes lostRecord) with
      lost := lost, out := out, history := c.history ++ [e] } (q ++ e.bytes lostRecord) := by
  have hw := h.holds.head_lt
  have hlen : (e.bytes lostRecord).length ≤ bufLen := by
    have := h.idle_eq
    omega
  have hframe := c.bufWrite_eq hw hlen
  have hcalls : (c.bufWrite (e.bytes lostRecord)).calls = c.calls := by rw [hframe]
  have hsend : (c.bufWrite (e.bytes lostRecord)).send = c.send := by rw [hframe]
  refine ⟨?_, ?_, ?_, ?_, ?_⟩
  · simp only [hsend]
    exact Holds.bufWrite h.holds hfit
  · simp only [hcalls, stream_snoc, ← h.stream_eq, List.append_assoc]
  · simp only [hcalls, stream_snoc]
    intro p call r hp
    exact (h.handed p call r hp).trans (List.prefix_append _ _)
  · refine counted_snoc.mpr ⟨h.counted, fun n hn => ?_⟩
    rw [h.pending_eq]
    exact hcount n hn
  · simp only [pending_snoc, h.pending_eq, hlost]

/-- `c'` is `c` after the socket has taken the first `k` bytes of its buffer. -/
structure Passed (c c' : Client) (q : List UInt8) (k : Nat) : Prop where
  keeps : Keeps c' (q.drop k)
  le_length : k ≤ q.length
  history_eq : c'.history = c.history
  lost_eq : c'.lost = c.lost
  out_eq : c'.out = c.out
  answers_eq : ∀ a ∈ c'.answers, a ∈ c.answers

theorem Answer.taken_le (a : Answer) (n : Nat) : a.taken n ≤ n := by
  cases a with
  | take k => exact Nat.min_le_right k n
  | again => exact Nat.zero_le n
  | error => exact Nat.zero_le n

/-- The answer to one `send`, as far as the code can tell it. -/
inductive Answered (c : Client) (n : Nat) : Answer → Prop where
  | take {k : Nat} (hk : k = (c.answers.headD .again).taken n) : Answered c n (.take k)
  | again (hk : (c.answers.headD .again).taken n = 0) : Answered c n .again
  | error (hk : (c.answers.headD .again).taken n = 0) (herr : .error ∈ c.answers) :
    Answered c n .error

theorem Client.sendCall_eq (c : Client) (n : Nat) (more : Bool) :
    ∃ a, Answered c n a ∧ c.sendCall n more = (a, { c with
      answers := c.answers.tail
      calls := c.calls ++
        [⟨cells c.buf c.send n, more, (c.answers.headD .again).taken n⟩] }) := by
  unfold Client.sendCall
  split
  · next h => exact ⟨.again, .again (by simp [h, Answer.taken]), by simp [h, Answer.taken]⟩
  · next k rest h => exact ⟨.take (min k n), .take (by simp [h, Answer.taken]), by simp [h, Answer.taken]⟩
  · next a rest hne h =>
    cases a with
    | take k => exact absurd rfl (hne k)
    | again => exact ⟨_, .again (by simp [h, Answer.taken]), by simp [h, Answer.taken]⟩
    | error =>
      exact ⟨_, .error (by simp [h, Answer.taken]) (by simp [h]), by simp [h, Answer.taken]⟩

theorem wire_append (xs ys : List Call) : wire (xs ++ ys) = wire xs ++ wire ys := by
  simp [wire]

theorem wire_singleton (call : Call) : wire [call] = call.bytes.take call.taken := by
  simp [wire]

/-- One `send` of the bytes at the front of the buffer. -/
theorem Keeps.sendCall (h : Keeps c q) {n : Nat} (more : Bool) (hn : n ≤ q.length)
    (hend : c.send + n ≤ bufLen) :
    ∃ a c₁, c.sendCall n more = (a, c₁) ∧ Answered c n a ∧ c₁.answers = c.answers.tail ∧
      c₁.send = c.send ∧ Passed c (c₁.advance ((c.answers.headD .again).taken n)) q
        ((c.answers.headD .again).taken n) ∧
      ((c.answers.headD .again).taken n = 0 → Passed c c₁ q 0) := by
  have hcells := h.holds.cells_eq hn hend
  obtain ⟨a, ha, heq⟩ := c.sendCall_eq n more
  generalize hk : (c.answers.headD .again).taken n = k at heq ⊢
  have hkn : k ≤ n := by
    rw [← hk]
    exact Answer.taken_le _ n
  refine ⟨a, _, heq, ha, rfl, rfl, ?_⟩
  have hpass : Passed c (Client.advance { c with
      answers := c.answers.tail
      calls := c.calls ++ [⟨cells c.buf c.send n, more, k⟩] } k) q k := by
    refine ⟨⟨h.holds.pop (by omega), ?_, ?_, h.counted, h.pending_eq⟩, by omega, rfl, rfl, rfl,
      fun a ha => List.mem_of_mem_tail ha⟩
    · simp only [Client.advance, wire_append, ← h.stream_eq, hcells, List.append_assoc]
      rw [wire_singleton, List.take_take, Nat.min_eq_left hkn, List.take_append_drop]
    · simp only [Client.advance]
      intro p call r hp
      rcases append_cons_eq_snoc hp with ⟨-, rfl, rfl⟩ | ⟨r', -, hr⟩
      · simp only [hcells, ← h.stream_eq]
        exact (List.prefix_append_right_inj _).mpr (List.take_prefix _ _)
      · exact h.handed p call r' hr
  refine ⟨hpass, fun hz => ?_⟩
  rw [hz] at hpass ⊢
  simpa only [Client.advance, Nat.add_zero, Nat.mod_eq_of_lt h.holds.tail_lt] using hpass

theorem Passed.refl (h : Keeps c q) : Passed c c q 0 :=
  ⟨h, Nat.zero_le _, rfl, rfl, rfl, fun _ ha => ha⟩

theorem Passed.trans {c₁ c₂ : Client} {j k : Nat} (h₁ : Passed c c₁ q j)
    (h₂ : Passed c₁ c₂ (q.drop j) k) : Passed c c₂ q (j+k) where
  keeps := by simpa [List.drop_drop] using h₂.keeps
  le_length := by
    have h1 := h₁.le_length
    have h2 := h₂.le_length
    rw [List.length_drop] at h2
    omega
  history_eq := h₂.history_eq.trans h₁.history_eq
  lost_eq := h₂.lost_eq.trans h₁.lost_eq
  out_eq := h₂.out_eq.trans h₁.out_eq
  answers_eq := fun a ha => h₁.answers_eq a (h₂.answers_eq a ha)

/-- A flush passes `k` bytes on and, when it gets through, ends with the loss record. -/
structure Flushes (c : Client) (out : Ret × Client) (q : List UInt8) (k : Nat) (through : Bool) :
    Prop where
  mid : ∃ c₁, Passed c c₁ q k ∧ out.2 = if through then c₁.writeLost else c₁
  stuck : through = false → k < q.length
  error : out.1 = .error → .error ∈ c.answers

/-- What `buf_send` from `if (len)` on passes on, and whether it gets to its end. -/
def restFlush (len : Nat) (answers : List Answer) : Nat × Bool :=
  if len = 0 then (0, true)
  else ((answers.headD .again).taken len, 0 < (answers.headD .again).taken len)

/-- What `buf_send` passes on, and whether it gets to its end. -/
def flush (send len : Nat) (answers : List Answer) : Nat × Bool :=
  if bufLen ≤ send + len then
    let n := bufLen - send
    let k := (answers.headD .again).taken n
    if k = n then (n + (restFlush (len - n) answers.tail).1, (restFlush (len - n) answers.tail).2)
    else (k, false)
  else restFlush len answers

theorem Keeps.sendRest (h : Keeps c q) (hend : c.send + q.length ≤ bufLen) :
    Flushes c (c.sendRest q.length) q (restFlush q.length c.answers).1
      (restFlush q.length c.answers).2 := by
  by_cases h0 : q.length = 0
  · rw [Client.sendRest, restFlush, if_pos h0, if_pos h0]
    exact ⟨⟨c, Passed.refl h, rfl⟩, by simp, by simp⟩
  obtain ⟨a, c₁, heq, ha, -, -, hpass, hstay⟩ := h.sendCall false (Nat.le_refl _) hend
  rw [Client.sendRest, if_neg h0, heq, restFlush, if_neg h0]
  cases ha with
  | error hk herr =>
    rw [hk]
    exact ⟨⟨c₁, hstay hk, by simp⟩, by simp; omega, fun _ => herr⟩
  | again hk =>
    rw [hk]
    exact ⟨⟨c₁, hstay hk, by simp⟩, by simp; omega, by simp⟩
  | @take k hk =>
    rw [← hk] at hpass hstay ⊢
    cases k with
    | zero => exact ⟨⟨c₁, hstay rfl, by simp⟩, by simp; omega, by simp⟩
    | succ k => exact ⟨⟨_, hpass, by simp⟩, by simp, by simp⟩

/-- `buf_send` -/
theorem Keeps.bufSend (h : Keeps c q) :
    Flushes c c.bufSend q (flush c.send q.length c.answers).1
      (flush c.send q.length c.answers).2 := by
  have hs := h.holds.tail_lt
  by_cases hwrap : bufLen ≤ c.send + q.length
  · obtain ⟨a, c₁, heq, ha, hans, hsend, hpass, hstay⟩ :=
      h.sendCall (n := bufLen - c.send) (bufLen - c.send != q.length) (by omega) (by omega)
    rw [Client.bufSend, h.cnt_eq, flush, if_pos hwrap, if_pos hwrap]
    simp only [heq]
    have hn : 0 ≠ bufLen - c.send := by omega
    cases ha with
    | error hk herr =>
      rw [hk, if_neg hn]
      exact ⟨⟨c₁, hstay hk, by simp⟩, by simp; omega, fun _ => herr⟩
    | again hk =>
      rw [hk, if_neg hn]
      exact ⟨⟨c₁, hstay hk, by simp⟩, by simp; omega, by simp⟩
    | @take k hk =>
      rw [← hk] at hpass hstay ⊢
      cases k with
      | zero =>
        rw [if_neg hn]
        exact ⟨⟨c₁, hstay rfl, by simp⟩, by simp; omega, by simp⟩
      | succ k =>
        by_cases hfull : k+1 = bufLen - c.send
        · have hzero : (c₁.advance (k+1)).send = 0 := by
            rw [Client.advance, hsend, show c.send + (k+1) = bufLen by omega, Nat.mod_self]
          have hlen := h.holds.length_lt
          have hrest := hpass.keeps.sendRest (by rw [hzero, List.length_drop]; omega)
          have hanswers : (c₁.advance (k+1)).answers = c.answers.tail := hans
          rw [hanswers, List.length_drop] at hrest
          rw [← hfull, if_pos rfl]
          simp only [ne_eq, not_true_eq_false, if_false]
          obtain ⟨⟨c₂, hp, hout⟩, hstuck, herr⟩ := hrest
          refine ⟨⟨c₂, hpass.trans hp, hout⟩, fun ht => ?_, fun he => ?_⟩
          · have := hstuck ht
            rw [List.length_drop] at this
            omega
          · exact hpass.answers_eq _ (herr he)
        · rw [if_neg hfull]
          simp only [ne_eq, hfull, not_false_eq_true, if_true]
          refine ⟨⟨_, hpass, by simp⟩, fun _ => ?_, by simp⟩
          have := hpass.le_length
          have hle : k+1 ≤ bufLen - c.send := by
            rw [hk]
            exact Answer.taken_le _ _
          omega
  · rw [Client.bufSend, h.cnt_eq, flush, if_neg hwrap, if_neg hwrap]
    exact h.sendRest (by omega)

theorem Client.bufWrite_answers (c : Client) (bytes : List UInt8) :
    (c.bufWrite bytes).answers = c.answers := by
  simp only [Client.bufWrite, Client.bufCopy]
  split_ifs <;> rfl

theorem Client.writeLost_answers (c : Client) : c.writeLost.answers = c.answers := by
  rw [Client.writeLost]
  split_ifs
  · exact c.bufWrite_answers _
  · rfl

/-- The loss record is queued when there is room for it and a byte more. -/
theorem Keeps.writeLost (h : Keeps c q) :
    (0 < c.lost ∧ lostLen < c.bufIdle ∧ Keeps c.writeLost (q ++ lostRecord c.lost) ∧
      c.writeLost.history = c.history ++ [.lost c.lost] ∧ c.writeLost.out = c.out ∧
      c.writeLost.lost = 0) ∨
    (¬ (0 < c.lost ∧ lostLen < c.bufIdle) ∧ c.writeLost = c) := by
  by_cases hw : 0 < c.lost ∧ lostLen < c.bufIdle
  · have hkeeps := h.write (e := .lost c.lost) c.out
      (by simp only [Entry.bytes, length_lostRecord]; omega) (by rintro n ⟨⟩; rfl) rfl
    have hlen : (lostRecord c.lost).length ≤ bufLen := by
      rw [length_lostRecord]
      decide
    have heq : c.writeLost = { c.bufWrite (lostRecord c.lost) with
        lost := 0, out := c.out, history := c.history ++ [.lost c.lost] } := by
      rw [Client.writeLost, if_pos hw, c.bufWrite_eq h.holds.head_lt hlen]
    rw [heq]
    exact .inl ⟨hw.1, hw.2, hkeeps, rfl, rfl, rfl⟩
  · exact .inr ⟨hw, if_neg hw⟩

/-- With nothing in the buffer no loss is left to report, and with something in it the
client waits for `EPOLLOUT`. -/
structure Fifo (c : Client) (q : List UInt8) : Prop extends Keeps c q where
  quiet : q = [] → c.lost = 0
  armed : q ≠ [] → c.out = true

/-- A flush keeps the books, whatever the socket answers. -/
theorem Fifo.bufSend (h : Fifo c q) :
    ∃ q', Fifo c.bufSend.2 q' ∧ c.bufSend.2.out = c.out ∧
      messages c.bufSend.2.history = messages c.history ∧
      ∀ a ∈ c.bufSend.2.answers, a ∈ c.answers := by
  have hfl := h.toKeeps.bufSend
  generalize (flush c.send q.length c.answers).1 = k at hfl
  generalize (flush c.send q.length c.answers).2 = through at hfl
  obtain ⟨⟨c₁, hp, hout⟩, hstuck, -⟩ := hfl
  have harmed : q.drop k ≠ [] → c₁.out = true := by
    intro hne
    rw [hp.out_eq]
    refine h.armed fun hq => hne ?_
    rw [hq, List.drop_nil]
  cases through with
  | false =>
    rw [hout]
    refine ⟨q.drop k, ⟨hp.keeps, fun hnil => ?_, harmed⟩, hp.out_eq, ?_, hp.answers_eq⟩
    · have := hstuck rfl
      have := List.drop_eq_nil_iff.mp hnil
      omega
    · rw [if_neg (by simp), hp.history_eq]
  | true =>
    rw [hout, if_pos rfl]
    rcases hp.keeps.writeLost with ⟨hlost, -, hkeeps, hhist, hout', hzero⟩ | ⟨hno, heq⟩
    · refine ⟨_, ⟨hkeeps, fun _ => hzero, fun _ => ?_⟩, hout'.trans hp.out_eq, ?_, ?_⟩
      · rw [hout', hp.out_eq]
        refine h.armed fun hq => ?_
        rw [hp.lost_eq, h.quiet hq] at hlost
        omega
      · rw [hhist, messages_snoc, hp.history_eq]
        simp [Entry.message]
      · rw [c₁.writeLost_answers]
        exact hp.answers_eq
    · rw [heq]
      refine ⟨_, ⟨hp.keeps, fun hnil => ?_, harmed⟩, hp.out_eq, ?_, hp.answers_eq⟩
      · have hidle := hp.keeps.idle_eq
        rw [hnil] at hidle
        have hroom : lostLen < c₁.bufIdle := by
          rw [hidle]
          decide
        omega
      · rw [hp.history_eq]

theorem Keeps.enqueue_fits (h : Keeps c q) {msg : List UInt8} (hfit : msg.length ≤ c.bufIdle) :
    Keeps (c.enqueue msg) (q ++ msg) ∧ (c.enqueue msg).history = c.history ++ [.queued msg] ∧
      (c.enqueue msg).lost = c.lost ∧ (c.enqueue msg).out = (c.out || c.bufIsEmpty) := by
  have hidle := h.idle_eq
  have hkeeps := h.write (e := .queued msg) (c.out || c.bufIsEmpty)
    hfit (by rintro n ⟨⟩) rfl
  have heq : c.enqueue msg = { c.bufWrite msg with
      lost := c.lost, out := c.out || c.bufIsEmpty, history := c.history ++ [.queued msg] } := by
    rw [Client.enqueue, if_pos hfit, c.bufWrite_eq h.holds.head_lt (by omega)]
    cases c.bufIsEmpty <;> cases c.out <;> simp
  rw [heq]
  exact ⟨hkeeps, rfl, rfl, rfl⟩

theorem Keeps.enqueue_drops (h : Keeps c q) {msg : List UInt8} (hfull : c.bufIdle < msg.length) :
    Keeps (c.enqueue msg) q ∧ (c.enqueue msg).history = c.history ++ [.dropped msg] ∧
      (c.enqueue msg).out = c.out := by
  rw [Client.enqueue, if_neg (by omega)]
  refine ⟨⟨h.holds, ?_, ?_, ?_, ?_⟩, rfl, rfl⟩
  · simpa [Entry.bytes] using h.stream_eq
  · simpa [Entry.bytes] using h.handed
  · exact counted_snoc.mpr ⟨h.counted, by rintro n ⟨⟩⟩
  · simp [Entry.count, h.pending_eq]

theorem Fifo.enqueue (h : Fifo c q) {msg : List UInt8} (hlen : msg.length < bufLen) :
    ∃ q', Fifo (c.enqueue msg) q' ∧
      messages (c.enqueue msg).history = messages c.history ++ [msg] := by
  have hidle := h.idle_eq
  by_cases hfit : msg.length ≤ c.bufIdle
  · obtain ⟨hkeeps, hhist, hlost, hout⟩ := h.toKeeps.enqueue_fits hfit
    refine ⟨q ++ msg, ⟨hkeeps, fun hnil => ?_, fun _ => ?_⟩, ?_⟩
    · rw [hlost]
      exact h.quiet (List.append_eq_nil_iff.mp hnil).1
    · rw [hout]
      by_cases hq : q = []
      · simp [h.isEmpty_iff.mpr hq]
      · simp [h.armed hq]
    · simp [hhist, messages_snoc, Entry.message]
  · obtain ⟨hkeeps, hhist, hout⟩ := h.toKeeps.enqueue_drops (Nat.lt_of_not_le hfit)
    have hne : q ≠ [] := by
      rintro rfl
      rw [List.length_nil] at hidle
      omega
    refine ⟨q, ⟨hkeeps, fun hq => absurd hq hne, ?_⟩, ?_⟩
    · rw [hout]
      exact h.armed
    · simp [hhist, messages_snoc, Entry.message]

theorem Fifo.handleOut (h : Fifo c q) (hout : c.handleOut = some c') :
    ∃ q', Fifo c' q' ∧ messages c'.history = messages c.history := by
  obtain ⟨q', hf, -, hmsg, -⟩ := h.bufSend
  rw [Client.handleOut] at hout
  generalize c.bufSend = r at hout hf hmsg
  obtain ⟨ret, c₁⟩ := r
  cases ret with
  | error => cases hout
  | again =>
    cases hout
    exact ⟨q', hf, hmsg⟩
  | ok =>
    cases hout
    by_cases hemp : c₁.bufIsEmpty
    · rw [if_pos hemp]
      have hnil : q' = [] := hf.isEmpty_iff.mp hemp
      exact ⟨q', ⟨⟨hf.holds, hf.stream_eq, hf.handed, hf.counted, hf.pending_eq⟩, hf.quiet,
        fun hne => absurd hnil hne⟩, hmsg⟩
    · rw [if_neg hemp]
      exact ⟨q', hf, hmsg⟩

theorem Fifo.tcpSend (h : Fifo c q) {msg : List UInt8} (hlen : msg.length < bufLen)
    (hout : c.tcpSend msg = some c') :
    ∃ q', Fifo c' q' ∧ messages c'.history = messages c.history ++ [msg] := by
  rw [Client.tcpSend] at hout
  split at hout
  · obtain ⟨q', hf, -, hmsg, -⟩ := h.bufSend
    rw [← hmsg]
    generalize c.bufSend = r at hout hf
    obtain ⟨ret, c₁⟩ := r
    cases ret with
    | error => cases hout
    | again =>
      cases hout
      exact hf.enqueue hlen
    | ok =>
      cases hout
      exact hf.enqueue hlen
  · cases hout
    exact h.enqueue hlen

theorem Fifo.step (h : Fifo c q) {op : Op} (hlen : ∀ msg, op = .send msg → msg.length < bufLen)
    (hout : step c op = some c') :
    ∃ q', Fifo c' q' ∧ messages c'.history = messages c.history ++ op.message.toList := by
  cases op with
  | send msg => exact h.tcpSend (hlen msg rfl) hout
  | out => simpa [Op.message] using h.handleOut hout

theorem Fifo.run (h : Fifo c q) {ops : List Op}
    (hlen : ∀ msg, .send msg ∈ ops → msg.length < bufLen) (hout : run ops c = some c') :
    ∃ q', Fifo c' q' ∧ messages c'.history = messages c.history ++ ops.filterMap Op.message := by
  induction ops generalizing c q with
  | nil =>
    cases hout
    exact ⟨q, h, by simp⟩
  | cons op ops ih =>
    obtain ⟨c₁, hstep, hrest⟩ := Option.bind_eq_some_iff.mp hout
    obtain ⟨q₁, hf, hmsg⟩ := h.step (fun msg hop => hlen msg (by simp [hop])) hstep
    obtain ⟨q', hf', hmsg'⟩ := ih hf (fun msg hm => hlen msg (by simp [hm])) hrest
    refine ⟨q', hf', ?_⟩
    rw [hmsg', hmsg, List.append_assoc]
    cases hop : op.message <;> simp [hop]

theorem Client.enqueue_answers (c : Client) (msg : List UInt8) :
    (c.enqueue msg).answers = c.answers := by
  simp only [Client.enqueue]
  split_ifs
  · exact c.bufWrite_answers msg
  · exact c.bufWrite_answers msg
  · rfl

/-- Only a hard error ends the connection. -/
theorem Fifo.step_isSome (h : Fifo c q) (herr : .error ∉ c.answers) (op : Op) :
    ∃ c', TcpSend.step c op = some c' ∧ .error ∉ c'.answers := by
  obtain ⟨-, -, -, -, hans⟩ := h.bufSend
  have hret : c.bufSend.1 ≠ .error := fun he => herr (h.toKeeps.bufSend.error he)
  cases op with
  | send msg =>
    rw [TcpSend.step, Client.tcpSend]
    split
    · generalize c.bufSend = r at hans hret
      obtain ⟨ret, c₁⟩ := r
      refine ⟨c₁.enqueue msg, ?_, ?_⟩
      · cases ret with
        | error => exact absurd rfl hret
        | again => rfl
        | ok => rfl
      · rw [c₁.enqueue_answers]
        exact fun he => herr (hans _ he)
    · exact ⟨_, rfl, by rwa [c.enqueue_answers]⟩
  | out =>
    rw [TcpSend.step, Client.handleOut]
    generalize c.bufSend = r at hans hret
    obtain ⟨ret, c₁⟩ := r
    cases ret with
    | error => exact absurd rfl hret
    | again => exact ⟨c₁, rfl, fun he => herr (hans _ he)⟩
    | ok =>
      refine ⟨_, rfl, ?_⟩
      split_ifs
      · exact fun he => herr (hans _ he)
      · exact fun he => herr (hans _ he)

theorem Fifo.run_isSome (h : Fifo c q) {ops : List Op} (herr : .error ∉ c.answers)
    (hlen : ∀ msg, .send msg ∈ ops → msg.length < bufLen) : (TcpSend.run ops c).isSome := by
  induction ops generalizing c q with
  | nil => rfl
  | cons op ops ih =>
    obtain ⟨c₁, hstep, herr₁⟩ := h.step_isSome herr op
    obtain ⟨q₁, hf, -⟩ := h.step (fun msg hop => hlen msg (by simp [hop])) hstep
    rw [TcpSend.run, runs, hstep]
    exact ih hf herr₁ fun msg hm => hlen msg (by simp [hm])

theorem established_fifo (buf : Nat → UInt8) (answers : List Answer) :
    Fifo (established buf answers) [] where
  holds := Holds.empty buf (by decide)
  stream_eq := rfl
  handed := by simp [established]
  counted := counted_nil
  pending_eq := rfl
  quiet := fun _ => rfl
  armed := fun h => absurd rfl h

end Spec

/-- The send buffer is a queue of whole messages. Until a hard error, what the socket has
taken and what the buffer holds make up the stream of the messages queued and the losses
reported; every message given to `tcp_send` is in the history, queued or counted. -/
theorem tcp_send_fifo (buf : Nat → UInt8) (answers : List Answer) (ops : List Op)
    (hlen : ∀ msg, .send msg ∈ ops → 1 ≤ msg.length ∧ msg.length ≤ 65535) :
    (.error ∉ answers → (run ops (established buf answers)).isSome) ∧
    ∀ c, run ops (established buf answers) = some c →
      (∀ p call r, c.calls = p ++ call :: r →
        wire p ++ call.bytes <+: stream lostRecord c.history) ∧
      (∃ q, Holds c.buf bufLen c.write c.send q ∧
        wire c.calls ++ q = stream lostRecord c.history) ∧
      messages c.history = ops.filterMap Op.message ∧
      drops c.history = reports c.history + c.lost ∧
      c.send < bufLen ∧ c.write < bufLen ∧ c.bufCnt < bufLen ∧
      (c.bufIsEmpty = false → c.out = true) := by
  have hlen' : ∀ msg, .send msg ∈ ops → msg.length < bufLen := by
    intro msg hm
    have := (hlen msg hm).2
    simp only [bufLen]
    omega
  have hstart := established_fifo buf answers
  refine ⟨fun herr => hstart.run_isSome herr hlen', fun c hrun => ?_⟩
  obtain ⟨q, hf, hmsg⟩ := hstart.run hlen' hrun
  refine ⟨hf.handed, ⟨q, hf.holds, hf.stream_eq⟩, hmsg, ?_, hf.holds.tail_lt, hf.holds.head_lt,
    ?_, fun hemp => ?_⟩
  · rw [hf.counted.drops_eq, hf.pending_eq]
  · rw [hf.cnt_eq]
    exact hf.holds.length_lt
  · refine hf.armed fun hnil => ?_
    rw [hf.isEmpty_iff.mpr hnil] at hemp
    cases hemp

/-- Three bytes queued, one taken at the first `EPOLLOUT`. -/
theorem tcp_send_fifo_partial :
    ∃ c, run [.send [1, 2, 3], .out] (established (fun _ => 0) [.take 1]) = some c ∧
      wire c.calls = [1] ∧ c.out = true ∧ drops c.history = reports c.history + c.lost := by
  have h := tcp_send_fifo (fun _ => 0) [.take 1] [.send [1, 2, 3], .out] (by simp)
  refine ⟨_, rfl, by decide +kernel, ?_, ?_⟩
  · exact (h.2 _ rfl).2.2.2.2.2.2.2 (by decide +kernel)
  · exact (h.2 _ rfl).2.2.2.1

end PerfProf.TcpSend
