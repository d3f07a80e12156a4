import PerfProf.CdevSend

/-! Where a loss is reported. Both senders hold the count of dropped messages back until a
flush makes room for the record; a message that is queued in the meantime overtakes it. -/
namespace PerfProf.LossOrder
open PerfProf.Loop PerfProf.Circ PerfProf.Outbox PerfProf.EventSpread
open PerfProf.TcpSend (Answer lostRecord lostLen)

section Tcp
open PerfProf.TcpSend
variable {c c' : Client} {q msg : List UInt8}

/-- A loss is waiting to be reported, and the message fits: at once, or after a flush that
does not get to the loss record or leaves no room for it. -/
def Overtakes (c : Client) (msg : List UInt8) : Prop :=
  0 < c.lost ∧ (c.bufIdle < msg.length →
    let r := TcpSend.flush c.send c.bufCnt c.answers
    ¬ (r.2 = true ∧ lostLen < c.bufIdle + r.1) ∧ msg.length ≤ c.bufIdle + r.1)

/-- No message of the run overtakes a loss record. -/
def Careful (ops : List Op) (c : Client) : Prop :=
  Meets step (fun c op => ∀ msg, op = .send msg → ¬ Overtakes c msg) ops c

theorem ordered_lost {h : List (Entry UInt8)} {n : Nat} : Ordered (h ++ [.lost n]) ↔ Ordered h := by
  simp [ordered_snoc]

/-- The flush of `buf_send` reports the loss or leaves the books alone. -/
theorem bufSend_loss (h : Keeps c q) :
    let r := TcpSend.flush c.send c.bufCnt c.answers
    ∃ q', Keeps c.bufSend.2 q' ∧ (Ordered c.bufSend.2.history ↔ Ordered c.history) ∧
      ((c.bufSend.2.lost = 0 ∧ (c.lost = 0 ∨ r.2 = true ∧ lostLen < c.bufIdle + r.1)) ∨
        (c.bufSend.2.lost = c.lost ∧ ¬ (r.2 = true ∧ lostLen < c.bufIdle + r.1) ∧
          c.bufSend.2.bufIdle = c.bufIdle + r.1)) := by
  have hfl := h.bufSend
  have hlt := h.holds.length_lt
  rw [h.cnt_eq, h.idle_eq]
  generalize TcpSend.flush c.send q.length c.answers = r at hfl
  obtain ⟨k, through⟩ := r
  obtain ⟨⟨c₁, hp, hout⟩, -, -⟩ := hfl
  have hle := hp.le_length
  have hidle : c₁.bufIdle = bufLen - 1 - q.length + k := by
    rw [hp.keeps.idle_eq, List.length_drop]
    simp only at hle
    omega
  simp only at hout ⊢
  cases through with
  | false =>
    rw [hout, if_neg (by simp)]
    exact ⟨_, hp.keeps, by rw [hp.history_eq], .inr ⟨hp.lost_eq, by simp, hidle⟩⟩
  | true =>
    rw [hout, if_pos rfl]
    rcases hp.keeps.writeLost with ⟨-, hroom, hkeeps, hhist, -, hzero⟩ | ⟨hno, heq⟩
    · refine ⟨_, hkeeps, by rw [hhist, ordered_lost, hp.history_eq], .inl ⟨hzero, .inr ⟨rfl, ?_⟩⟩⟩
      rwa [hidle] at hroom
    · rw [heq]
      refine ⟨_, hp.keeps, by rw [hp.history_eq], ?_⟩
      by_cases hz : c.lost = 0
      · exact .inl ⟨hp.lost_eq.trans hz, .inl hz⟩
      · refine .inr ⟨hp.lost_eq, fun hr => hno ⟨?_, ?_⟩, hidle⟩
        · rw [hp.lost_eq]
          omega
        · rw [hidle]
          exact hr.2

theorem ordered_enqueue (h : Keeps c q) : (∃ q', Keeps (c.enqueue msg) q') ∧
    (Ordered (c.enqueue msg).history ↔
      Ordered c.history ∧ (msg.length ≤ c.bufIdle → c.lost = 0)) := by
  by_cases hfit : msg.length ≤ c.bufIdle
  · obtain ⟨hkeeps, hhist, -, -⟩ := h.enqueue_fits hfit
    refine ⟨⟨_, hkeeps⟩, ?_⟩
    rw [hhist, ordered_snoc, h.pending_eq]
    simp [hfit]
  · obtain ⟨hkeeps, hhist, -⟩ := h.enqueue_drops (Nat.lt_of_not_le hfit)
    refine ⟨⟨_, hkeeps⟩, ?_⟩
    rw [hhist, ordered_snoc]
    simp [hfit]

/-- One `tcp_send` keeps the loss records in place exactly when it does not overtake one. -/
theorem ordered_tcpSend (h : Keeps c q) (hout : c.tcpSend msg = some c') :
    (∃ q', Keeps c' q') ∧ (Ordered c'.history ↔ Ordered c.history ∧ ¬ Overtakes c msg) := by
  by_cases hfull : c.bufIdle < msg.length
  · obtain ⟨q₁, hkeeps, hord, hcase⟩ := bufSend_loss h
    have henq : c' = c.bufSend.2.enqueue msg := by
      rw [Client.tcpSend, if_pos hfull] at hout
      generalize c.bufSend = r at hout
      obtain ⟨ret, c₁⟩ := r
      cases ret with
      | error => cases hout
      | again => exact (Option.some.inj hout).symm
      | ok => exact (Option.some.inj hout).symm
    obtain ⟨hk', hord'⟩ := ordered_enqueue hkeeps
    rw [henq]
    refine ⟨hk', ?_⟩
    rw [hord', hord, Overtakes]
    rcases hcase with ⟨hzero, hrep⟩ | ⟨hsame, hno, hidle⟩
    · have hnot : ¬ (0 < c.lost ∧ (c.bufIdle < msg.length →
          ¬ ((TcpSend.flush c.send c.bufCnt c.answers).2 = true ∧
            lostLen < c.bufIdle + (TcpSend.flush c.send c.bufCnt c.answers).1) ∧
          msg.length ≤ c.bufIdle + (TcpSend.flush c.send c.bufCnt c.answers).1)) := by
        rintro ⟨hpos, himp⟩
        rcases hrep with hz | hr
        · omega
        · exact (himp hfull).1 hr
      simp only [hzero, hnot, not_false_eq_true, and_true, implies_true]
    · rw [hsame, hidle]
      simp only [hfull, hno, true_implies, not_false_eq_true, true_and]
      constructor
      · rintro ⟨ho, hz⟩
        refine ⟨ho, ?_⟩
        rintro ⟨hpos, hle⟩
        have := hz hle
        omega
      · rintro ⟨ho, hnot⟩
        refine ⟨ho, fun hle => ?_⟩
        by_contra hpos
        exact hnot ⟨by omega, hle⟩
  · rw [Client.tcpSend, if_neg hfull] at hout
    cases hout
    obtain ⟨hk', hord'⟩ := ordered_enqueue h
    refine ⟨hk', ?_⟩
    rw [hord', Overtakes]
    simp only [hfull, false_implies, and_true, Nat.le_of_not_lt hfull, true_implies]
    rw [Nat.pos_iff_ne_zero, not_not]

theorem ordered_handleOut (h : Keeps c q) (hout : c.handleOut = some c') :
    (∃ q', Keeps c' q') ∧ (Ordered c'.history ↔ Ordered c.history) := by
  obtain ⟨q₁, hkeeps, hord, -⟩ := bufSend_loss h
  rw [← hord]
  rw [Client.handleOut] at hout
  generalize c.bufSend = r at hout hkeeps
  obtain ⟨ret, c₁⟩ := r
  cases ret with
  | error => cases hout
  | again =>
    cases hout
    exact ⟨⟨q₁, hkeeps⟩, Iff.rfl⟩
  | ok =>
    cases hout
    split_ifs
    · exact ⟨⟨q₁, hkeeps.holds, hkeeps.stream_eq, hkeeps.handed, hkeeps.counted,
        hkeeps.pending_eq⟩, Iff.rfl⟩
    · exact ⟨⟨q₁, hkeeps⟩, Iff.rfl⟩

theorem ordered_step (h : Keeps c q) {op : Op} (hout : step c op = some c') :
    (∃ q', Keeps c' q') ∧ (Ordered c'.history ↔
      Ordered c.history ∧ ∀ msg, op = .send msg → ¬ Overtakes c msg) := by
  cases op with
  | send msg => simpa using ordered_tcpSend h hout
  | out => simpa using ordered_handleOut h hout

theorem careful_iff (h : Keeps c q) (ho : Ordered c.history) (ops : List Op) :
    Careful ops c ↔ ∀ p c', p <+: ops → run p c = some c' →
      Counted c'.history ∧ Ordered c'.history := by
  refine meets_iff (I := fun c => ∃ q, Keeps c q) (P := fun c => Counted c.history ∧ Ordered c.history)
    ?_ ⟨q, h⟩ ⟨h.counted, ho⟩ ops
  rintro c op c' ⟨q, hk⟩ ⟨-, ho⟩ hstep
  obtain ⟨⟨q', hk'⟩, hord⟩ := ordered_step hk hstep
  refine ⟨⟨q', hk'⟩, ?_⟩
  rw [and_iff_right hk'.counted, hord, and_iff_right ho]

end Tcp

section Cdev
open PerfProf.CdevSend
variable {c c' : Cdev} {q msg : List UInt8} {header : Option Header}

/-- The writes of a flush up to the first one that makes room for the loss record: how many
bytes they pass on, and whether there is such a one. `len` bytes wait from `tail` on. -/
def drain : Nat → Nat → Nat → List Answer → Nat × Bool
  | 0, _, _, _ => (0, false)
  | n+1, len, tail, answers =>
    let wr := (answers.headD .again).taken (min len (bufLen - tail))
    if wr = 0 then (0, false)
    else if lostLen ≤ wr then (wr, true)
    else
      let r := drain n (len - wr) ((tail + wr) % bufLen) answers.tail
      (wr + r.1, r.2)

/-- A loss is waiting to be reported, and the message fits: at once, or after a flush that
does not report it. -/
def Overruns (c : Cdev) (msg : List UInt8) : Prop :=
  c.connected = true ∧ 0 < c.lost ∧ (c.space < msg.length →
    let r := drain (c.answers.length + 1) c.cnt c.tail c.answers
    r.2 = false ∧ msg.length ≤ c.space + r.1)

/-- A flush with no loss waiting. -/
theorem retry_no_loss (h : Fifo c q) (hc : c.connected = true) (hl : c.lost = 0) (n : Nat) :
    (Cdev.retry n c).history = c.history ∧ (Cdev.retry n c).lost = 0 := by
  induction n generalizing c q with
  | zero => exact ⟨rfl, hl⟩
  | succ n ih =>
    cases h.round hc n with
    | empty _ heq =>
      rw [heq]
      exact ⟨rfl, hl⟩
    | blocked c₁ _ heq _ _ hh hl₁ =>
      rw [heq]
      exact ⟨hh, hl₁.trans hl⟩
    | silent c₁ _ heq hf hc₁ hh hl₁ _ _ _ =>
      rw [heq, ← hh]
      exact ih hf (hc₁.trans hc) (hl₁.trans hl)
    | reported c₁ _ _ _ _ _ hyes => omega

/-- A flush while a loss is waiting: it reports the loss, or leaves the books alone. -/
theorem retry_loss (h : Fifo c q) (hc : c.connected = true) (hl : 0 < c.lost) (n : Nat) :
    ((drain n q.length c.tail c.answers).2 = true ∧
      (Cdev.retry n c).history = c.history ++ [.lost c.lost] ∧ (Cdev.retry n c).lost = 0) ∨
    ((drain n q.length c.tail c.answers).2 = false ∧
      (Cdev.retry n c).history = c.history ∧ (Cdev.retry n c).lost = c.lost ∧
      ∃ q', Fifo (Cdev.retry n c) q' ∧
        q'.length + (drain n q.length c.tail c.answers).1 = q.length) := by
  induction n generalizing c q with
  | zero => exact .inr ⟨rfl, rfl, rfl, q, h, rfl⟩
  | succ n ih =>
    rw [drain]
    cases h.round hc n with
    | empty hq heq =>
      have hwr : (c.answers.headD .again).taken (min q.length (bufLen - c.tail)) = 0 := by
        have := TcpSend.Answer.taken_le (c.answers.headD .again) (min q.length (bufLen - c.tail))
        rw [hq, List.length_nil, Nat.zero_min] at this ⊢
        omega
      rw [heq, if_pos hwr]
      exact .inr ⟨rfl, rfl, rfl, q, ⟨h.holds, h.stream_eq, h.counted, h.pending_eq,
        fun hne => absurd hq hne⟩, rfl⟩
    | blocked c₁ hwr heq hf _ hh hl₁ =>
      rw [heq, if_pos hwr]
      exact .inr ⟨rfl, hh, hl₁, q, hf, rfl⟩
    | silent c₁ hwr heq hf hc₁ hh hl₁ hno ht ha =>
      have hle := TcpSend.Answer.taken_le (c.answers.headD .again) (min q.length (bufLen - c.tail))
      rw [heq, if_neg (by omega), if_neg (by omega), ← hh, ← hl₁, ← ht, ← ha]
      rw [← List.length_drop]
      rcases ih hf (hc₁.trans hc) (by omega) with hrep | ⟨hno, hh', hl', q', hf', hlen⟩
      · exact .inl hrep
      · refine .inr ⟨hno, hh', hl', q', hf', ?_⟩
        rw [List.length_drop] at hlen
        simp only [List.length_drop]
        omega
    | reported c₁ heq hf hc₁ hh hl₁ hyes =>
      rw [heq, if_neg (by have := hyes.2; simp only [lostLen] at this; omega), if_pos hyes.2]
      obtain ⟨hh', hl'⟩ := retry_no_loss hf (hc₁.trans hc) hl₁ n
      exact .inl ⟨rfl, hh'.trans hh, hl'⟩

theorem ordered_queue (h : Fifo c q) : Ordered (c.enqueue (.queued msg)).history ↔
    Ordered c.history ∧ (msg.length ≤ c.space → c.lost = 0) := by
  by_cases hfit : msg.length ≤ c.space
  · rw [Cdev.enqueue_history (e := .queued msg) hfit, ordered_snoc, h.pending_eq]
    simp [hfit]
  · have heq : (c.enqueue (.queued msg)).history = c.history ++ [.dropped msg] := by
      rw [Cdev.enqueue, Entry.bytes, if_neg hfit]
    rw [heq, ordered_snoc]
    simp [hfit]

/-- One broadcast keeps the loss records in place exactly when it does not overrun one. -/
theorem ordered_broadcast (h : Fifo c q) (hc : c.connected = true) :
    Ordered (c.blockBroadcast msg).history ↔ Ordered c.history ∧ ¬ Overruns c msg := by
  have hlt := h.holds.length_lt
  have hspace := h.space_eq
  rw [Cdev.blockBroadcast, Cdev.broadcastVia, if_pos hc, Overruns, Entry.bytes, h.cnt_eq]
  simp only [hc, true_and]
  by_cases hfull : c.space < msg.length
  · rw [if_pos hfull, Cdev.flush]
    generalize c.answers.length + 1 = n
    obtain ⟨⟨q₁, hf₁⟩, -⟩ := h.retry hc n
    rw [ordered_queue hf₁]
    by_cases hl : c.lost = 0
    · obtain ⟨hh, hz⟩ := retry_no_loss h hc hl n
      simp [hh, hz, hl]
    · rcases retry_loss h hc (by omega) n with ⟨hrep, hh, hz⟩ | ⟨hno, hh, hsame, q', hf', hlen⟩
      · rw [hh, ordered_lost, hz, hrep]
        simp [hfull]
      · rw [hh, hsame, hno, hf'.space_eq, hspace]
        have hroom : msg.length ≤ bufLen - 1 - q'.length ↔ msg.length ≤
            bufLen - 1 - q.length + (drain n q.length c.tail c.answers).1 := by omega
        rw [hspace] at hfull
        simp only [hroom, hl, hfull, true_implies, imp_false, true_and, Nat.pos_of_ne_zero hl]
  · rw [if_neg hfull, ordered_queue h]
    simp only [hfull, false_implies, and_true, Nat.le_of_not_lt hfull, true_implies]
    rw [Nat.pos_iff_ne_zero, not_not]

/-- None of the messages, broadcast one after the other, overruns a loss record. -/
def CarefulEvents : List (List UInt8) → Cdev → Prop
  | [], _ => True
  | msg :: events, c => ¬ Overruns c msg ∧ CarefulEvents events (c.blockBroadcast msg)

theorem ordered_broadcasts (h : Fifo c q) (hc : c.connected = true) (events : List (List UInt8)) :
    Ordered (events.foldl Cdev.blockBroadcast c).history ↔
      Ordered c.history ∧ CarefulEvents events c := by
  induction events generalizing c q with
  | nil => simp [CarefulEvents]
  | cons msg events ih =>
    obtain ⟨⟨q₁, hf⟩, hg⟩ := h.blockBroadcast hc msg
    rw [List.foldl_cons, ih hf (hg.connected_eq.trans hc), ordered_broadcast h hc, CarefulEvents,
      and_assoc]

/-- The condition on one operation. Only broadcasts are concerned, those that a connection
sets off included. -/
def Spares (header : Option Header) (c : Cdev) : Op → Prop
  | .broadcast msg => ¬ Overruns c msg
  | .out events => c.connected = false → header.isSome →
    CarefulEvents events (Cdev.writeHeader { c with connected := true } header)
  | .hup _ => True

/-- No message of the run overruns a loss record. -/
def CarefulRun (header : Option Header) (ops : List Op) (c : Cdev) : Prop :=
  Meets (step header) (Spares header) ops c

theorem ordered_flush (h : Fifo c q) (hc : c.connected = true) :
    Ordered c.flush.history ↔ Ordered c.history := by
  rw [Cdev.flush]
  by_cases hl : c.lost = 0
  · rw [(retry_no_loss h hc hl _).1]
  · rcases retry_loss h hc (by omega) (c.answers.length + 1) with ⟨-, hh, -⟩ | ⟨-, hh, -⟩
    · rw [hh, ordered_lost]
    · rw [hh]

theorem ordered_header (header : Option Header) : Ordered (header.elim []
    fun p => [Entry.queued p.record, .queued p.sys, .queued p.name]) := by
  cases header with
  | none => exact ordered_nil
  | some p =>
    rintro a m b m' r h
    have hmem : Entry.dropped m ∈ [Entry.queued p.record, .queued p.sys, .queued p.name] := by
      rw [Option.elim_some] at h
      simp [h]
    simp at hmem

theorem ordered_handleOut_off {g : Bool × List (List UInt8)} (h : Reached header c g)
    (hoff : c.connected = false) (events : List (List UInt8)) :
    Ordered (c.handleOut header events).history ↔
      (header.isSome → CarefulEvents events
        (Cdev.writeHeader { c with connected := true } header)) := by
  obtain ⟨hf, hnil⟩ := h.off hoff
  have hon : Fifo { c with connected := true } [] :=
    ⟨hf.holds, hf.stream_eq, hf.counted, hf.pending_eq, hf.armed⟩
  obtain ⟨⟨q₁, hf₁⟩, hc₁, hh₁⟩ := hon.writeHeader rfl hnil header
  rw [Cdev.handleOut, if_neg (by simp [hoff])]
  cases header with
  | none =>
    simp only [Option.isSome_none, Bool.false_eq_true, if_false, false_implies, iff_true]
    rw [ordered_flush hf₁ hc₁, hh₁]
    exact ordered_nil
  | some p =>
    obtain ⟨⟨q₂, hf₂⟩, hg₂⟩ := hf₁.broadcasts hc₁ events
    simp only [Option.isSome_some, if_true, true_implies]
    rw [ordered_flush hf₂ (hg₂.connected_eq.trans hc₁), ordered_broadcasts hf₁ hc₁, hh₁]
    exact and_iff_right (ordered_header (some p))

theorem ordered_op {g : Bool × List (List UInt8)} (h : Reached header c g)
    (ho : Ordered c.history) {op : Op} (hstep : step header c op = some c') :
    Ordered c'.history ↔ Spares header c op := by
  obtain ⟨q, hf⟩ := h.fifo
  cases op with
  | broadcast msg =>
    cases hstep
    by_cases hc : c.connected = true
    · rw [ordered_broadcast hf hc, Spares]
      exact and_iff_right ho
    · rw [Cdev.blockBroadcast, Cdev.broadcastVia, if_neg hc, Spares]
      exact iff_of_true ho fun hover => hc hover.1
  | out events =>
    cases hstep
    by_cases hc : c.connected = true
    · rw [Cdev.handleOut, if_pos hc, ordered_flush hf hc]
      exact iff_of_true ho fun hoff => by simp [hc] at hoff
    · have hoff : c.connected = false := by simpa using hc
      rw [ordered_handleOut_off h hoff, Spares]
      simp only [hoff, true_implies]
  | hup reopened =>
    have hnil : c'.history = [] := by
      simp only [CdevSend.step, Cdev.handleHup] at hstep
      split_ifs at hstep
      · cases hstep
        rfl
      · cases hstep
        rfl
    rw [hnil]
    exact iff_of_true ordered_nil trivial

theorem carefulRun_iff {g : Bool × List (List UInt8)} (h : Reached header c g)
    (ho : Ordered c.history) (ops : List Op) :
    CarefulRun header ops c ↔ ∀ p c', p <+: ops → run header p c = some c' →
      Counted c'.history ∧ Ordered c'.history := by
  have hcounted {c : Cdev} {g : Bool × List (List UInt8)} (h : Reached header c g) :
      Counted c.history := by
    obtain ⟨q, hf⟩ := h.fifo
    exact hf.counted
  refine meets_iff (I := fun c => ∃ g, Reached header c g)
    (P := fun c => Counted c.history ∧ Ordered c.history) ?_ ⟨g, h⟩ ⟨hcounted h, ho⟩ ops
  rintro c op c' ⟨g, hr⟩ ⟨-, ho⟩ hstep
  have hr' := hr.step hstep
  refine ⟨⟨_, hr'⟩, ?_⟩
  rw [and_iff_right (hcounted hr'), ordered_op hr ho hstep]

end Cdev

/-- Both senders put every loss record where the loss happened, in every state of a run, as
long as no message is queued while a loss is still waiting to be reported; and then only. -/
theorem loss_in_place (buf : Nat → UInt8) (answers : List Answer) :
    (∀ ops : List TcpSend.Op, Careful ops (TcpSend.established buf answers) ↔
      ∀ p c, p <+: ops → TcpSend.run p (TcpSend.established buf answers) = some c →
        Counted c.history ∧ Ordered c.history) ∧
    ∀ (header : Option CdevSend.Header) (ops : List CdevSend.Op),
      CarefulRun header ops (CdevSend.opened buf answers) ↔
        ∀ p c, p <+: ops → CdevSend.run header p (CdevSend.opened buf answers) = some c →
          Counted c.history ∧ Ordered c.history := by
  refine ⟨fun ops => ?_, fun header ops => ?_⟩
  · exact careful_iff (TcpSend.established_fifo buf answers).toKeeps ordered_nil ops
  · exact carefulRun_iff (CdevSend.opened_reached buf answers) ordered_nil ops

section Overtaken
open PerfProf.TcpSend

/-- A socket that takes nothing. One byte is queued, a message of 65535 bytes is dropped, the
byte after it is queued; no loss record stands between them. -/
theorem overtaken {big : List UInt8} (hlen : big.length = 65535) :
    ∃ c, TcpSend.run [.send [0], .send big, .send [1]] (TcpSend.established (fun _ => 0) []) =
        some c ∧
      c.history = [.queued [0], .dropped big, .queued [1]] ∧ ¬ Ordered c.history := by
  let c₁ := (established (fun _ => 0) []).enqueue [0]
  let c₂ : Client := { c₁.bufSend.2 with lost := 1, history := [.queued [0], .dropped big] }
  have hidle : c₁.bufSend.2.bufIdle = 65534 := by decide +kernel
  have h₁ : (established (fun _ => 0) []).tcpSend [0] = some c₁ := by
    rw [Client.tcpSend, if_neg (by decide +kernel)]
  have h₂ : c₁.tcpSend big = some c₂ := by
    have hfull : c₁.bufIdle < big.length := by
      rw [hlen]
      decide +kernel
    have hret : c₁.bufSend = (.again, c₁.bufSend.2) := Prod.ext (by decide +kernel) rfl
    rw [Client.tcpSend, if_pos hfull, hret]
    simp only [Client.enqueue, if_neg (show ¬ big.length ≤ c₁.bufSend.2.bufIdle by omega)]
    rfl
  have hfit : [(1 : UInt8)].length ≤ c₂.bufIdle := Nat.le_trans (by decide) (Nat.le_of_eq hidle.symm)
  have h₃ : c₂.tcpSend [1] = some (c₂.enqueue [1]) := by
    rw [Client.tcpSend, if_neg (Nat.not_lt.mpr hfit)]
  have hhist : (c₂.enqueue [1]).history = [.queued [0], .dropped big, .queued [1]] := by
    simp only [Client.enqueue, if_pos hfit]
    split_ifs
    · rfl
    · rfl
  refine ⟨c₂.enqueue [1], ?_, hhist, fun ho => ?_⟩
  · simp only [TcpSend.run, runs, TcpSend.step, h₁, h₂, h₃, Option.bind_some]
  obtain ⟨n, hn⟩ := ho [.queued [0]] big [] [1] [] (by rw [hhist]; rfl)
  simp at hn

theorem small_message_overtakes_loss :
    ∃ c, TcpSend.run [.send [0], .send (List.replicate 65535 0), .send [1]]
        (TcpSend.established (fun _ => 0) []) = some c ∧
      c.history = [.queued [0], .dropped (List.replicate 65535 0), .queued [1]] ∧
      ¬ Ordered c.history :=
  overtaken List.length_replicate

end Overtaken

end PerfProf.LossOrder
