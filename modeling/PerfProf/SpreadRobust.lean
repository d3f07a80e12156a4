import PerfProf.EventSpread
import PerfProf.SpreadFraming

/-! Receivers on arbitrary bytes. The size field is the only measure of progress, so a
header of size 0 that is not refused holds a record loop forever, and a file
record shorter than its header asks `fread` for almost 2^64 bytes. -/
namespace PerfProf.EventSpread
open PerfProf.Loop PerfProf.Framing

section Walk
variable {H : Handler} {least : Nat}

/-- Following the size fields over accepted records leads from `mem`, `n` bytes of it
received, to the header at `mem'` with `n'` bytes left. -/
inductive Reached (H : Handler) (least : Nat) : List UInt8 → Nat → List UInt8 → Nat → Prop where
  | here (mem : List UInt8) (n : Nat) : Reached H least mem n mem n
  | next {mem m mem' : List UInt8} {n n' : Nat} (hl : least ≤ n) (hs : headerSize mem ≤ n)
      (h0 : 0 < headerSize mem) (hp : H.processEvent mem = some m)
      (h : Reached H least (m.drop (headerSize mem)) (n - headerSize mem) mem' n') :
      Reached H least mem n mem' n'

/-- Some header reached has size 0 and is accepted however often it is processed. -/
def Stalls (H : Handler) (least : Nat) (mem : List UInt8) (n : Nat) : Prop :=
  ∃ mem' n', Reached H least mem n mem' n' ∧ least ≤ n' ∧ headerSize mem' = 0 ∧
    Endless H.processEvent mem'

/-- The bytes to look at are inside the buffer. -/
def Walk.Inside (w : Walk) : Prop := w.event + w.size ≤ w.buf.length

theorem walkPass_again {w : Walk} {m : List UInt8} (hin : w.Inside)
    (htest : least ≤ w.size ∧ headerSize w.here ≤ w.size) (hp : H.processEvent w.here = some m) :
    ∃ w', walkPass H least w = .again w' ∧ w'.here = m.drop (headerSize w.here) ∧
      w'.size = w.size - headerSize w.here ∧ w'.event + w'.size = w.event + w.size ∧
      w'.Inside := by
  have hml := H.process_length _ _ hp
  have hhl : w.here.length = w.buf.length - w.event := by simp [Walk.here]
  have hev : w.event ≤ w.buf.length := by
    simp only [Walk.Inside] at hin
    omega
  refine ⟨⟨w.buf.take w.event ++ m, w.event + headerSize w.here, w.size - headerSize w.here,
    w.log ++ [w.here.take (headerSize w.here)]⟩, ?_, ?_, rfl, ?_, ?_⟩
  · rw [walkPass, if_pos htest]
    simp only [hp]
  · simp only [Walk.here, List.drop_append, List.length_take, Nat.min_eq_left hev]
    have hmin : min w.event w.buf.length ≤ w.event + headerSize (w.buf.drop w.event) := by omega
    simp [hmin]
  · show w.event + headerSize w.here + (w.size - headerSize w.here) = w.event + w.size
    omega
  · simp only [Walk.Inside, List.length_append, List.length_take] at hin ⊢
    omega

theorem walkPass_done {w : Walk}
    (h : ¬ (least ≤ w.size ∧ headerSize w.here ≤ w.size) ∨ H.processEvent w.here = none) :
    ∃ w' ok, walkPass H least w = .done w' ok := by
  by_cases htest : least ≤ w.size ∧ headerSize w.here ≤ w.size
  · have hp := h.resolve_left (not_not_intro htest)
    refine ⟨{ w with size := w.size - headerSize w.here,
                     log := w.log ++ [w.here.take (headerSize w.here)] }, false, ?_⟩
    rw [walkPass, if_pos htest]
    simp only [hp]
  · exact ⟨_, _, by rw [walkPass, if_neg htest]⟩

theorem headerSize_process {m m' : List UInt8} (hp : H.processEvent m = some m') :
    headerSize m' = headerSize m := by
  rw [← headerSize_take, H.process_header _ _ hp, headerSize_take]

theorem walk_zero_halts {w : Walk} (hin : w.Inside) (hl : least ≤ w.size)
    (h0 : headerSize w.here = 0) :
    Halts (walkPass H least) w ↔ ¬ Endless H.processEvent w.here := by
  refine halts_iff_not_endless
    (I := fun w : Walk => w.Inside ∧ least ≤ w.size ∧ headerSize w.here = 0) Walk.here
    ?_ ?_ ⟨hin, hl, h0⟩
  · intro u m ⟨hu, hul, hu0⟩ hp
    obtain ⟨w', hb, hh', hs', -, hin'⟩ := walkPass_again hu ⟨hul, by omega⟩ hp
    rw [hu0, List.drop_zero] at hh'
    refine ⟨w', hb, ⟨hin', by omega, ?_⟩, hh'⟩
    rw [hh', headerSize_process hp, hu0]
  · intro u _ hp
    exact walkPass_done (Or.inr hp)

/-- The record loop ends exactly when it does not run into such a header. -/
theorem walk_halts_iff (w : Walk) (hin : w.Inside) :
    Halts (walkPass H least) w ↔ ¬ Stalls H least w.here w.size := by
  induction hn : w.size using Nat.strongRecOn generalizing w with
  | _ n ih =>
    subst hn
    by_cases hend : ¬ (least ≤ w.size ∧ headerSize w.here ≤ w.size) ∨ H.processEvent w.here = none
    · obtain ⟨w', ok, hd⟩ := walkPass_done hend
      refine ⟨fun _ => ?_, fun _ => halts_done hd⟩
      intro ⟨mem', n', hr, hl, h0, he⟩
      cases hr with
      | here =>
        cases hend with
        | inl h => exact h ⟨hl, by omega⟩
        | inr h => exact not_endless_of_none h he
      | next hl' hs' _ hp _ =>
        cases hend with
        | inl h => exact h ⟨hl', hs'⟩
        | inr h => simp [h] at hp
    · obtain ⟨htest, hpn⟩ : (least ≤ w.size ∧ headerSize w.here ≤ w.size) ∧
          H.processEvent w.here ≠ none := by
        simpa only [not_or, not_not] using hend
      obtain ⟨m, hp⟩ := Option.ne_none_iff_exists'.mp hpn
      by_cases h0 : headerSize w.here = 0
      · rw [walk_zero_halts hin htest.1 h0]
        refine not_congr ⟨fun he => ⟨w.here, w.size, .here _ _, htest.1, h0, he⟩, ?_⟩
        intro ⟨mem', n', hr, hl, h0', he⟩
        cases hr with
        | here => exact he
        | next _ _ hpos _ _ => omega
      · obtain ⟨w', hb, hh', hs', -, hin'⟩ := walkPass_again hin htest hp
        rw [halts_again hb, ih w'.size (by omega) w' hin' rfl, hh', hs']
        refine not_congr ⟨?_, ?_⟩
        · intro ⟨mem', n', hr, hrest⟩
          exact ⟨mem', n', .next htest.1 htest.2 (by omega) hp hr, hrest⟩
        · intro ⟨mem', n', hr, hl, hz, he⟩
          cases hr with
          | here => exact absurd hz h0
          | next _ _ _ hp' h =>
            obtain rfl : m = _ := Option.some.inj (hp.symm.trans hp')
            exact ⟨mem', n', h, hl, hz, he⟩

theorem walk_inside {w w' : Walk} (hin : w.Inside) (h : Visits (walkPass H least) w w') :
    w'.Inside ∧ w'.event + w'.size = w.event + w.size := by
  refine h.invariant (I := fun u => u.Inside ∧ u.event + u.size = w.event + w.size) ?_ ⟨hin, rfl⟩
  intro u v ⟨hu, hue⟩ hb
  by_cases hend : ¬ (least ≤ u.size ∧ headerSize u.here ≤ u.size) ∨ H.processEvent u.here = none
  · obtain ⟨w', ok, hd⟩ := walkPass_done hend
    rw [hd] at hb
    cases hb
  · obtain ⟨htest, hpn⟩ : (least ≤ u.size ∧ headerSize u.here ≤ u.size) ∧
        H.processEvent u.here ≠ none := by
      simpa only [not_or, not_not] using hend
    obtain ⟨m, hp⟩ := Option.ne_none_iff_exists'.mp hpn
    obtain ⟨w', hb', -, -, hs', hin'⟩ := walkPass_again hu htest hp
    obtain rfl : w' = v := by
      rw [hb'] at hb
      exact Pass.again.inj hb
    exact ⟨hin', by omega⟩

end Walk

section BlockRead
variable {H : Handler} {init : Bool}

/-- The records that `block_read_event` passes over, with the memory it leaves: a header
record, any record of a disabled device, a sample without instance. -/
def Handler.retried (H : Handler) (m : List UInt8) : Option (List UInt8) :=
  if headerType m = perfRecordTp then H.processEvent m
  else if !H.enabled then some m
  else if headerType m = perfRecordSample then
    match H.eventConvert m with
    | (none, m') => some m'
    | (some _, _) => none
  else none

theorem Handler.retried_keeps {m m' : List UInt8} (h : H.retried m = some m') :
    m'.length = m.length ∧ m'.take headerLen = m.take headerLen := by
  by_cases htp : headerType m = perfRecordTp
  · rw [Handler.retried, if_pos htp] at h
    exact ⟨H.process_length _ _ h, H.process_header _ _ h⟩
  · by_cases hen : (!H.enabled) = true
    · rw [Handler.retried, if_neg htp, if_pos hen] at h
      rw [Option.some.inj h]
      exact ⟨rfl, rfl⟩
    · by_cases hsm : headerType m = perfRecordSample
      · rw [Handler.retried, if_neg htp, if_neg hen, if_pos hsm] at h
        have hl := H.convert_length m
        have hh := H.convert_header m
        cases hc : H.eventConvert m with
        | mk ins m₁ =>
          rw [hc] at h hl hh
          cases ins with
          | none =>
            obtain rfl : m₁ = m' := by simpa using h
            exact ⟨hl, hh⟩
          | some i => simp at h
      · rw [Handler.retried, if_neg htp, if_neg hen, if_neg hsm] at h
        simp at h

/-- The record is noted and the callback's writes are kept; the cursor stays. -/
def Block.skip (b : Block) (m : List UInt8) : Block :=
  { b.rewrite m with log := b.log ++ [b.here.take (headerSize b.here)] }

theorem Block.take_again {b : Block} {m : List UInt8} (hw : b.whole = true)
    (hr : H.retried b.here = some m) : b.take H = .again (b.skip m) := by
  have hh : ∀ l, Block.here { b with log := l } = b.here := fun _ => rfl
  by_cases htp : headerType b.here = perfRecordTp
  · rw [Handler.retried, if_pos htp] at hr
    simp only [Block.take, hw, if_true, hh, htp, hr]
    rfl
  · by_cases hen : (!H.enabled) = true
    · rw [Handler.retried, if_neg htp, if_pos hen] at hr
      simp only [Block.take, hw, if_true, hh, htp, if_false, hen, ← Option.some.inj hr]
      simp [Block.skip, Block.rewrite, Block.here]
    · by_cases hsm : headerType b.here = perfRecordSample
      · rw [Handler.retried, if_neg htp, if_neg hen, if_pos hsm] at hr
        cases hc : H.eventConvert b.here with
        | mk ins m₁ =>
          rw [hc] at hr
          cases ins with
          | none =>
            obtain rfl : m₁ = m := by simpa using hr
            have hen' : H.enabled = true := by simpa using hen
            simp only [Block.take, hw, if_true, hh, hen', hsm, hc]
            rfl
          | some i => simp at hr
      · rw [Handler.retried, if_neg htp, if_neg hen, if_neg hsm] at hr
        simp at hr

theorem Block.take_done {b : Block} (h : b.whole = false ∨ H.retried b.here = none) :
    ∃ b' res, b.take H = .done b' res ∧ b'.freed = b.freed := by
  have hh : ∀ l, Block.here { b with log := l } = b.here := fun _ => rfl
  by_cases hw : b.whole = true
  · have hr := h.resolve_left (by simp [hw])
    simp only [Block.take, hw, if_true, hh]
    by_cases htp : headerType b.here = perfRecordTp
    · rw [Handler.retried, if_pos htp] at hr
      simp only [htp, if_true, hr]
      exact ⟨_, _, rfl, rfl⟩
    · by_cases hen : (!H.enabled) = true
      · rw [Handler.retried, if_neg htp, if_pos hen] at hr
        simp at hr
      · by_cases hsm : headerType b.here = perfRecordSample
        · rw [Handler.retried, if_neg htp, if_neg hen, if_pos hsm] at hr
          cases hc : H.eventConvert b.here with
          | mk ins m₁ =>
            rw [hc] at hr
            cases ins with
            | none => simp at hr
            | some i =>
              simp only [hen, hsm, if_true]
              exact ⟨_, _, rfl, rfl⟩
        · simp only [htp, if_false, hen, hsm]
          exact ⟨_, _, rfl, rfl⟩
  · rw [Block.take, if_neg hw]
    exact ⟨_, _, rfl, rfl⟩

/-- The unread bytes are inside `event_buf`. -/
def Block.Inside (b : Block) : Prop :=
  b.eventBuf.length = bufLen ∧ b.event + b.size ≤ bufLen

theorem Block.consume_inside {b : Block} (h : b.Inside) : b.consume.Inside := by
  obtain ⟨hb, he, -⟩ := Block.consume_spec b
  exact ⟨by rw [hb]; exact h.1, by rw [he]; exact h.2⟩

theorem Block.fill_inside {b : Block} (init : Bool) (h : b.Inside) :
    (b.fill init).1.Inside ∧
      (b.fill init).1.size + (wire (b.fill init).1.socket).length =
        b.size + (wire b.socket).length := by
  by_cases hc : (init && !b.whole) = true
  · obtain ⟨hbuf, hfits⟩ := h
    obtain ⟨hwire, hlen⟩ := recv_spec (bufLen - b.size) b.socket
    have hwl := congrArg List.length hwire
    rw [List.length_append] at hwl
    let buf := if b.size ≠ 0 ∧ b.event ≠ 0 then
      blit b.eventBuf 0 (slice b.eventBuf b.event b.size) else b.eventBuf
    have hbl : buf.length = bufLen := by
      by_cases hm : b.size ≠ 0 ∧ b.event ≠ 0
      · have hs : (slice b.eventBuf b.event b.size).length = b.size :=
          slice_length b.eventBuf (by omega)
        simp only [buf, if_pos hm]
        rw [blit_length _ (by omega), hbuf]
      · simp only [buf, if_neg hm, hbuf]
    cases hrecv : recv (bufLen - b.size) b.socket with
    | mk o socket =>
      rw [hrecv] at hwl hlen
      cases o with
      | error =>
        have he : b.fill init = ({ b with eventBuf := buf, socket := socket }, false) := by
          simp only [Block.fill, hc, if_true, Block.refill, hrecv]
          rfl
        rw [he]
        simp only [Recv.bytes, List.length_nil] at hwl
        exact ⟨⟨hbl, hfits⟩, by simp only; omega⟩
      | shutdown =>
        have he : b.fill init = ({ b with eventBuf := buf, event := 0, socket := socket,
                                          freed := b.freed || decide (b.type = .tcp) }, true) := by
          simp only [Block.fill, hc, if_true, Block.refill, hrecv]
          rfl
        rw [he]
        simp only [Recv.bytes, List.length_nil] at hwl
        exact ⟨⟨hbl, by simp only; omega⟩, by simp only; omega⟩
      | data bs =>
        have he : b.fill init = ({ b with eventBuf := blit buf b.size bs, event := 0,
                                          size := b.size + bs.length, socket := socket }, true) := by
          simp only [Block.fill, hc, if_true, Block.refill, hrecv]
          rfl
        rw [he]
        simp only [Recv.bytes] at hwl hlen
        refine ⟨⟨?_, ?_⟩, by simp only; omega⟩
        · show (blit buf b.size bs).length = bufLen
          rw [blit_length _ (by omega), hbl]
        · show 0 + (b.size + bs.length) ≤ bufLen
          omega
  · rw [Block.fill, if_neg hc]
    exact ⟨h, rfl⟩

theorem Block.skip_spec {b : Block} {m : List UInt8} (h : b.Inside) (hw : b.whole = true)
    (hr : H.retried b.here = some m) :
    (b.skip m).Inside ∧ (b.skip m).here = m ∧ headerSize m = headerSize b.here ∧
      (b.skip m).whole = true ∧
      (b.skip m).consume.size = b.size - headerSize b.here := by
  obtain ⟨hml, hmt⟩ := Handler.retried_keeps hr
  obtain ⟨hbuf, hfits⟩ := h
  have hhl : b.here.length = b.eventBuf.length - b.event := by simp [Block.here]
  have hev : b.event ≤ b.eventBuf.length := by omega
  have hh : (b.skip m).here = m := by
    simp only [Block.skip, Block.rewrite, Block.here, List.drop_append, List.length_take,
      Nat.min_eq_left hev]
    simp
  have hn : headerSize m = headerSize b.here := by
    rw [← headerSize_take, hmt, headerSize_take]
  have hw' : (b.skip m).whole = true := by
    simp only [Block.whole, hh, hn, Bool.and_eq_true] at hw ⊢
    exact hw
  refine ⟨⟨?_, hfits⟩, hh, hn, hw', ?_⟩
  · simp only [Block.skip, Block.rewrite, List.length_append, List.length_take]
    omega
  · simp only [Block.consume, hw', if_true, hh, hn]
    rfl

/-- The next read meets the peer's shutdown. -/
def HangsUp (socket : List Arrival) : Prop := ∃ rest, socket = .shutdown :: rest

theorem recv_shutdown_iff (len : Nat) (socket : List Arrival) :
    (∃ rest, recv len socket = (.shutdown, rest)) ↔ HangsUp socket := by
  cases socket with
  | nil => simp [recv, HangsUp]
  | cons a rest =>
    cases a with
    | error | shutdown => simp [recv, HangsUp]
    | data bs =>
      by_cases h : bs.length ≤ len <;> simp [recv, HangsUp, h]

/-- The block is freed where a read is made of a connection whose peer has shut it down. -/
theorem Block.fill_freed_iff {b : Block} (init : Bool) (ha : b.freed = false) :
    (b.fill init).1.freed = true ↔
      init = true ∧ b.whole = false ∧ b.type = .tcp ∧ HangsUp b.socket := by
  rw [← recv_shutdown_iff (bufLen - b.size)]
  by_cases hc : (init && !b.whole) = true
  · obtain ⟨hi, hw⟩ : init = true ∧ b.whole = false := by simpa using hc
    simp only [Block.fill, hi, hw, Bool.not_false, Bool.and_self, if_true, true_and]
    cases hrecv : recv (bufLen - b.size) b.socket with
    | mk o socket =>
      cases o with
      | data bs | error => simp [Block.refill, hrecv, ha]
      | shutdown => simp [Block.refill, hrecv, ha]
  · rw [Block.fill, if_neg hc]
    simp only [ha, Bool.false_eq_true, false_iff]
    rintro ⟨hi, hw, -⟩
    simp [hi, hw] at hc

/-- Passing over records leads one call from `b` to the loop head at `b'`. -/
inductive BlockReached (H : Handler) (init : Bool) : Block → Block → Prop where
  | here (b : Block) : BlockReached H init b b
  | next {b b₀ b' : Block} {m : List UInt8} (hf : b.consume.fill init = (b₀, true))
      (ha : b₀.freed = false) (hw : b₀.whole = true) (h0 : 0 < headerSize b₀.here)
      (hr : H.retried b₀.here = some m) (h : BlockReached H init (b₀.skip m) b') :
      BlockReached H init b b'

/-- The record at hand has size 0 and is passed over however often it is looked at. -/
def Block.Stuck (H : Handler) (init : Bool) (b : Block) : Prop :=
  ∃ b₀, b.consume.fill init = (b₀, true) ∧ b₀.freed = false ∧ b₀.whole = true ∧
    headerSize b₀.here = 0 ∧ Endless H.retried b₀.here

def BlockStalls (H : Handler) (init : Bool) (b : Block) : Prop :=
  ∃ b', BlockReached H init b b' ∧ b'.Stuck H init

/-- A connection is read that the peer has shut down, with no whole record held. -/
def BlockHangsUp (H : Handler) (init : Bool) (b : Block) : Prop :=
  ∃ b', BlockReached H init b b' ∧ init = true ∧ b'.consume.whole = false ∧ b'.type = .tcp ∧
    HangsUp b'.socket

/-- The record at `b₀` is not passed over: the call ends here. -/
def Block.Ends (H : Handler) (b₀ : Block) (ok : Bool) : Prop :=
  ok = false ∨ b₀.freed = true ∨ b₀.whole = false ∨ H.retried b₀.here = none

theorem BlockReached.eq_of_ends {b b₀ b' : Block} {ok : Bool} (hf : b.consume.fill init = (b₀, ok))
    (hend : b₀.Ends H ok) (h : BlockReached H init b b') : b' = b := by
  cases h with
  | here => rfl
  | next hf₁ ha₁ hw₁ _ hr₁ _ =>
    rw [hf] at hf₁
    obtain ⟨rfl, rfl⟩ : b₀ = _ ∧ ok = true := by simpa using hf₁
    rcases hend with h | h | h | h
    · simp at h
    · simp [ha₁] at h
    · simp [hw₁] at h
    · simp [hr₁] at h

theorem BlockReached.eq_of_zero {b b₀ b' : Block} {ok : Bool} (hf : b.consume.fill init = (b₀, ok))
    (h0 : headerSize b₀.here = 0) (h : BlockReached H init b b') : b' = b := by
  cases h with
  | here => rfl
  | next hf₁ _ _ hpos _ _ =>
    rw [hf] at hf₁
    obtain ⟨rfl, -⟩ : b₀ = _ ∧ ok = true := by simpa using hf₁
    omega

theorem blockReached_next_iff {b b₀ b' : Block} {m : List UInt8}
    (hf : b.consume.fill init = (b₀, true)) (ha : b₀.freed = false) (hw : b₀.whole = true)
    (h0 : 0 < headerSize b₀.here) (hr : H.retried b₀.here = some m) :
    BlockReached H init b b' ↔ b' = b ∨ BlockReached H init (b₀.skip m) b' := by
  constructor
  · intro h
    cases h with
    | here => exact Or.inl rfl
    | next hf₁ _ _ _ hr₁ h =>
      rw [hf] at hf₁
      obtain ⟨rfl, -⟩ : b₀ = _ ∧ True := by simpa using hf₁
      obtain rfl : m = _ := Option.some.inj (hr.symm.trans hr₁)
      exact Or.inr h
  · rintro (rfl | h)
    · exact .here _
    · exact .next hf ha hw h0 hr h

theorem blockReadPass_take {b b₀ : Block} (hf : b.consume.fill init = (b₀, true))
    (ha : b₀.freed = false) : blockReadPass H init b = b₀.take H := by
  simp only [blockReadPass, hf, ha, Bool.false_eq_true, if_false]

theorem blockReadPass_ends {b b₀ : Block} {ok : Bool} (hf : b.consume.fill init = (b₀, ok))
    (hend : b₀.Ends H ok) :
    ∃ b' res, blockReadPass H init b = .done b' res ∧ b'.freed = b₀.freed := by
  cases ok with
  | false => exact ⟨b₀, none, by simp only [blockReadPass, hf], rfl⟩
  | true =>
    by_cases ha : b₀.freed = true
    · exact ⟨b₀, none, by simp only [blockReadPass, hf, ha, if_true], rfl⟩
    · rw [blockReadPass_take hf (by simpa using ha)]
      exact Block.take_done ((hend.resolve_left (by simp)).resolve_left ha)

theorem Block.not_ends {b₀ : Block} {ok : Bool} (h : ¬ b₀.Ends H ok) :
    ok = true ∧ b₀.freed = false ∧ b₀.whole = true ∧ ∃ m, H.retried b₀.here = some m := by
  simp only [Block.Ends, not_or, Bool.not_eq_false, Bool.not_eq_true] at h
  obtain ⟨hok, ha, hw, hr⟩ := h
  exact ⟨hok, ha, hw, Option.ne_none_iff_exists'.mp hr⟩

theorem Block.zero_consume_fill {b : Block} (hw : b.whole = true) (h0 : headerSize b.here = 0) :
    b.consume.fill init = (b, true) := by
  have hc : b.consume = b := by simp [Block.consume, hw, h0]
  rw [hc, Block.fill, hw]
  simp

/-- The call returns, with the block still allocated. -/
def BlockSafe (H : Handler) (init : Bool) (b : Block) : Prop :=
  EndsIn (blockReadPass H init) (fun b' => b'.freed = false) b

/-- At a whole record of size 0 the call only looks at it again and again. -/
theorem blockSafe_zero {b : Block} (hin : b.Inside) (ha : b.freed = false) (hw : b.whole = true)
    (h0 : headerSize b.here = 0) : BlockSafe H init b ↔ ¬ Endless H.retried b.here := by
  let I : Block → Prop := fun c =>
    c.Inside ∧ c.freed = false ∧ c.whole = true ∧ headerSize c.here = 0
  have hagain : ∀ c m, I c → H.retried c.here = some m →
      blockReadPass H init c = .again (c.skip m) ∧ I (c.skip m) ∧ (c.skip m).here = m := by
    intro c m ⟨hc, hca, hcw, hc0⟩ hr
    obtain ⟨hin', hh', hn', hw', -⟩ := Block.skip_spec hc hcw hr
    refine ⟨?_, ⟨hin', hca, hw', by rw [hh', hn', hc0]⟩, hh'⟩
    rw [blockReadPass_take (Block.zero_consume_fill hcw hc0) hca, Block.take_again hcw hr]
  have hdone : ∀ c, I c → H.retried c.here = none →
      ∃ b' res, blockReadPass H init c = .done b' res ∧ b'.freed = false := by
    intro c ⟨_, hca, hcw, hc0⟩ hr
    rw [blockReadPass_take (Block.zero_consume_fill hcw hc0) hca, ← hca]
    exact Block.take_done (Or.inr hr)
  have hstart : I b := ⟨hin, ha, hw, h0⟩
  rw [BlockSafe, endsIn_of_invariant (I := I) ?_ ?_ hstart]
  · refine halts_iff_not_endless (I := I) Block.here ?_ ?_ hstart
    · intro c m hc hr
      obtain ⟨h1, h2, h3⟩ := hagain c m hc hr
      exact ⟨c.skip m, h1, h2, h3⟩
    · intro c hc hr
      obtain ⟨b', res, hb, -⟩ := hdone c hc hr
      exact ⟨b', res, hb⟩
  · intro c d hc hb
    cases hr : H.retried c.here with
    | none =>
      obtain ⟨b', res, hb', -⟩ := hdone c hc hr
      rw [hb'] at hb
      cases hb
    | some m =>
      obtain ⟨h1, h2, -⟩ := hagain c m hc hr
      rw [h1] at hb
      rw [← Pass.again.inj hb]
      exact h2
  · intro c d res hc hb
    cases hr : H.retried c.here with
    | none =>
      obtain ⟨b', res', hb', ha'⟩ := hdone c hc hr
      rw [hb'] at hb
      rw [← (Pass.done.inj hb).1]
      exact ha'
    | some m =>
      rw [(hagain c m hc hr).1] at hb
      cases hb

/-- The read at the head of the loop frees the block: the one way to hang up there. -/
theorem Block.freed_iff_hangs_up {b b₀ : Block} {ok : Bool} (ha : b.freed = false)
    (hf : b.consume.fill init = (b₀, ok)) :
    b₀.freed = true ↔ init = true ∧ b.consume.whole = false ∧ b.type = .tcp ∧ HangsUp b.socket := by
  obtain ⟨-, -, hcs, -, -, hca, hct⟩ := Block.consume_spec b
  have h := Block.fill_freed_iff (b := b.consume) init (by rw [hca]; exact ha)
  rw [hf, hcs, hct] at h
  exact h

/-- A call of `block_read_event` returns with its block still there exactly when it does not run
into such a header and does not read a connection that the peer has shut down. -/
theorem blockSafe_iff (b : Block) (hin : b.Inside) (ha : b.freed = false) :
    BlockSafe H init b ↔ ¬ BlockStalls H init b ∧ ¬ BlockHangsUp H init b := by
  induction hn : b.consume.size + (wire b.consume.socket).length using Nat.strongRecOn
    generalizing b with
  | _ n ih =>
    obtain ⟨hin₀, hsz⟩ := Block.fill_inside init (Block.consume_inside hin)
    cases hf : b.consume.fill init with
    | mk b₀ ok =>
      rw [hf] at hin₀ hsz
      simp only at hin₀ hsz
      have hfreed := Block.freed_iff_hangs_up ha hf
      by_cases hend : b₀.Ends H ok
      · obtain ⟨b', res, hb, hb'⟩ := blockReadPass_ends hf hend
        have hstalls : ¬ BlockStalls H init b := by
          rintro ⟨b₂, hr, b₁, hf₁, ha₁, hw₁, -, he₁⟩
          rw [hr.eq_of_ends hf hend, hf] at hf₁
          obtain ⟨rfl, rfl⟩ : b₀ = b₁ ∧ ok = true := by simpa using hf₁
          rcases hend with h | h | h | h
          · simp at h
          · simp [ha₁] at h
          · simp [hw₁] at h
          · exact not_endless_of_none h he₁
        have hhangs : BlockHangsUp H init b ↔ b₀.freed = true := by
          rw [hfreed]
          constructor
          · rintro ⟨b₂, hr, hup⟩
            rwa [hr.eq_of_ends hf hend] at hup
          · exact fun hup => ⟨b, .here b, hup⟩
        rw [BlockSafe, endsIn_done hb, hb', hhangs]
        simp [hstalls]
      · obtain ⟨rfl, ha₀, hw, m, hr⟩ := Block.not_ends hend
        have hb : blockReadPass H init b = .again (b₀.skip m) := by
          rw [blockReadPass_take hf ha₀, Block.take_again hw hr]
        obtain ⟨hin', hh', hn', hw', hsz'⟩ := Block.skip_spec hin₀ hw hr
        have hnot : ¬ (init = true ∧ b.consume.whole = false ∧ b.type = .tcp ∧
            HangsUp b.socket) := by
          rw [← hfreed, ha₀]
          simp
        rw [BlockSafe, endsIn_again hb, ← BlockSafe]
        by_cases h0 : headerSize b₀.here = 0
        · have hhangs : ¬ BlockHangsUp H init b := by
            rintro ⟨b', hr', hup⟩
            rw [hr'.eq_of_zero hf h0] at hup
            exact hnot hup
          rw [blockSafe_zero hin' ha₀ hw' (by rw [hh', hn', h0]), hh', ← endless_step hr,
            and_iff_left hhangs]
          refine not_congr ⟨fun he => ⟨b, .here b, b₀, hf, ha₀, hw, h0, he⟩, ?_⟩
          rintro ⟨b', hr', b₁, hf₁, -, -, -, he₁⟩
          rw [hr'.eq_of_zero hf h0, hf] at hf₁
          obtain ⟨rfl, -⟩ : b₀ = b₁ ∧ True := by simpa using hf₁
          exact he₁
        · have hle : headerSize b₀.here ≤ b₀.size := by
            simp only [Block.whole, Bool.and_eq_true, decide_eq_true_eq] at hw
            exact hw.2
          have hsk : (b₀.skip m).consume.socket = b₀.socket :=
            (Block.consume_spec (b₀.skip m)).2.2.1
          have hreached : ∀ b', BlockReached H init b b' ↔
              b' = b ∨ BlockReached H init (b₀.skip m) b' := fun _ =>
            blockReached_next_iff hf ha₀ hw (by omega) hr
          rw [ih _ (by rw [hsz', hsk]; omega) (b₀.skip m) hin' ha₀ rfl]
          refine and_congr (not_congr ?_) (not_congr ?_)
          · constructor
            · rintro ⟨b', hr', hst⟩
              exact ⟨b', (hreached b').mpr (Or.inr hr'), hst⟩
            · rintro ⟨b', hr', hst⟩
              rcases (hreached b').mp hr' with rfl | h
              · obtain ⟨b₁, hf₁, -, -, h0₁, -⟩ := hst
                rw [hf] at hf₁
                obtain ⟨rfl, -⟩ : b₀ = b₁ ∧ True := by simpa using hf₁
                exact absurd h0₁ h0
              · exact ⟨b', h, hst⟩
          · constructor
            · rintro ⟨b', hr', hup⟩
              exact ⟨b', (hreached b').mpr (Or.inr hr'), hup⟩
            · rintro ⟨b', hr', hup⟩
              rcases (hreached b').mp hr' with rfl | h
              · exact absurd hup hnot
              · exact ⟨b', h, hup⟩

theorem block_inside {b b' : Block} (hin : b.Inside)
    (h : Visits (blockReadPass H init) b b') : b'.Inside := by
  refine h.invariant (I := Block.Inside) ?_ hin
  intro u v hu hb
  obtain ⟨hin₀, -⟩ := Block.fill_inside init (Block.consume_inside hu)
  cases hf : u.consume.fill init with
  | mk b₀ ok =>
    rw [hf] at hin₀
    by_cases hend : b₀.Ends H ok
    · obtain ⟨b', res, hd, -⟩ := blockReadPass_ends hf hend
      rw [hd] at hb
      cases hb
    · obtain ⟨rfl, ha₀, hw, m, hr⟩ := Block.not_ends hend
      rw [blockReadPass_take hf ha₀, Block.take_again hw hr] at hb
      rw [← Pass.again.inj hb]
      exact (Block.skip_spec hin₀ hw hr).1

end BlockRead

section File
variable {H : Handler}

/-- `event_copy` after both reads of a record of size `n`. -/
def loaded (copy file : List UInt8) (n : Nat) : List UInt8 :=
  blit (blit copy 0 (file.take headerLen)) headerLen ((file.drop headerLen).take n)

/-- Reading whole accepted records leads to the header at the front of `file'`. -/
inductive FileReached (H : Handler) :
    List UInt8 → List UInt8 → Nat → List UInt8 → List UInt8 → Nat → Prop where
  | here (file copy : List UInt8) (i : Nat) : FileReached H file copy i file copy i
  | next {file copy m file' copy' : List UInt8} {i i' : Nat} (hi : i < 64)
      (h8 : headerLen ≤ file.length) (hn : headerLen ≤ headerSize file)
      (hl : headerSize file ≤ file.length)
      (hp : H.processEvent (loaded copy file (headerSize file - headerLen)) = some m)
      (h : FileReached H (file.drop (headerSize file)) m (i+1) file' copy' i') :
      FileReached H file copy i file' copy' i'

/-- Some header that is read announces a record shorter than the header itself. -/
def ShortHeader (H : Handler) (file copy : List UInt8) (i : Nat) : Prop :=
  ∃ file' copy' i', FileReached H file copy i file' copy' i' ∧ i' < 64 ∧
    headerLen ≤ file'.length ∧ headerSize file' < headerLen

def FileRead.WithinBuffer (f : FileRead) : Prop := ∀ q ∈ f.requests, q.1 ≤ q.2

theorem loaded_take {copy file : List UInt8} (n : Nat) (h : headerLen ≤ file.length) :
    (loaded copy file n).take headerLen = file.take headerLen := by
  have hl : (file.take headerLen).length = headerLen := by simp [h]
  have h1 : (blit copy 0 (file.take headerLen)).take headerLen = file.take headerLen := by
    simp only [blit, List.take_zero, List.nil_append]
    rw [List.take_append_of_le_length (by omega), List.take_take, Nat.min_self]
  rw [loaded, blit, h1, List.append_assoc, List.take_append_of_le_length (by omega),
    List.take_take, Nat.min_self]

theorem headerSize_loaded {copy file : List UInt8} (n : Nat) (h : headerLen ≤ file.length) :
    headerSize (loaded copy file n) = headerSize file := by
  rw [← headerSize_take, loaded_take n h, headerSize_take]

theorem sizeT_short {n : Nat} (h : n < headerLen) : ¬ sizeT n headerLen ≤ bufLen - headerLen := by
  simp only [headerLen] at h
  simp only [sizeT, headerLen, bufLen]
  omega

theorem sizeT_long {n : Nat} (h : headerLen ≤ n) (hn : n < bufLen) :
    sizeT n headerLen = n - headerLen := by
  simp only [headerLen, bufLen] at h hn
  simp only [sizeT, headerLen]
  omega

theorem FileRead.settle_again {f g : FileRead} {len : Nat} (h : f.settle H len = .again g) :
    len = headerSize f.eventCopy ∧ H.processEvent f.eventCopy = some g.eventCopy ∧
      g.file = f.file ∧ g.i = f.i + 1 ∧ g.requests = f.requests := by
  by_cases hs : len = headerSize f.eventCopy
  · rw [FileRead.settle, if_pos hs] at h
    cases hp : H.processEvent f.eventCopy with
    | none => simp [hp] at h
    | some m =>
      rw [hp] at h
      rw [← Pass.again.inj h]
      exact ⟨hs, rfl, rfl, rfl, rfl⟩
  · rw [FileRead.settle, if_neg hs] at h
    cases h

theorem FileRead.settle_done {f g : FileRead} {len : Nat} {ok : Bool}
    (h : f.settle H len = .done g ok) :
    g.requests = f.requests ∧
      ¬ (len = headerSize f.eventCopy ∧ ∃ m, H.processEvent f.eventCopy = some m) := by
  by_cases hs : len = headerSize f.eventCopy
  · rw [FileRead.settle, if_pos hs] at h
    cases hp : H.processEvent f.eventCopy with
    | none =>
      rw [hp] at h
      obtain ⟨rfl, -⟩ := Pass.done.inj h
      exact ⟨rfl, by simp⟩
    | some m => simp [hp] at h
  · rw [FileRead.settle, if_neg hs] at h
    obtain ⟨rfl, -⟩ := Pass.done.inj h
    exact ⟨rfl, fun hm => hs hm.1⟩

/-- The state after a tail shorter than a header was read. -/
def FileRead.readTail (f : FileRead) : FileRead :=
  { f with file := [], eventCopy := blit f.eventCopy 0 f.file,
           requests := f.requests ++ [(headerLen, bufLen)] }

/-- The state after a header and the `n` bytes that follow it were read. -/
def FileRead.readRecord (f : FileRead) (n : Nat) : FileRead :=
  { f with file := (f.file.drop headerLen).drop n, eventCopy := loaded f.eventCopy f.file n,
           requests := f.requests ++ [(headerLen, bufLen), (n, bufLen - headerLen)] }

theorem handleFilePass_tail (f : FileRead) (hi : f.i < 64) (hf : f.file.length < headerLen) :
    handleFilePass H f = f.readTail.settle H f.file.length := by
  have ht : f.file.take headerLen = f.file := List.take_of_length_le (by omega)
  have hd : f.file.drop headerLen = [] := List.drop_of_length_le (by omega)
  have hne : f.file.length ≠ headerLen := by omega
  simp only [handleFilePass, if_pos hi, FileRead.fread, ht, hd, if_neg hne, Nat.add_zero]
  rfl

theorem handleFilePass_record (f : FileRead) (hi : f.i < 64) (hf : headerLen ≤ f.file.length) :
    handleFilePass H f = (f.readRecord (sizeT (headerSize f.file) headerLen)).settle H
      (headerLen + ((f.file.drop headerLen).take (sizeT (headerSize f.file) headerLen)).length) := by
  have hl : (f.file.take headerLen).length = headerLen := by simp [hf]
  have hs : headerSize (blit f.eventCopy 0 (f.file.take headerLen)) = headerSize f.file := by
    simp only [blit, List.take_zero, List.nil_append]
    rw [headerSize_append _ _ (by omega), headerSize_take]
  simp only [handleFilePass, if_pos hi, FileRead.fread, hl, if_true, hs]
  simp only [FileRead.readRecord, loaded, List.append_assoc, List.cons_append,
    List.nil_append, Nat.sub_zero]

theorem handleFilePass_stop (f : FileRead) (hi : ¬ f.i < 64) :
    handleFilePass H f = .done f true := by
  rw [handleFilePass, if_neg hi]

theorem FileRead.readTail_within {f : FileRead} (h : f.WithinBuffer) :
    f.readTail.WithinBuffer := by
  intro q hq
  cases List.mem_append.mp hq with
  | inl hq => exact h q hq
  | inr hq =>
    rw [List.mem_singleton.mp hq]
    decide

theorem FileRead.readRecord_within {f : FileRead} {n : Nat} (h : f.WithinBuffer) :
    (f.readRecord n).WithinBuffer ↔ n ≤ bufLen - headerLen := by
  constructor
  · intro hw
    exact hw (n, bufLen - headerLen) (by simp [FileRead.readRecord])
  · intro hn q hq
    cases List.mem_append.mp hq with
    | inl hq => exact h q hq
    | inr hq =>
      cases List.mem_cons.mp hq with
      | inl hq =>
        rw [hq]
        decide
      | inr hq =>
        rw [List.mem_singleton.mp hq]
        exact hn

theorem not_shortHeader_of_tail {file copy : List UInt8} {i : Nat}
    (hf : file.length < headerLen) : ¬ ShortHeader H file copy i := by
  intro ⟨file', copy', i', hr, _, hl, _⟩
  cases hr with
  | here => omega
  | next _ h8 _ _ _ _ => omega

/-- A run of `handle_file_event` ends and asks for no more than fits the buffer. -/
def FileSafe (H : Handler) (f : FileRead) : Prop :=
  EndsIn (handleFilePass H) FileRead.WithinBuffer f

theorem fileSafe_done {f g : FileRead} {ok : Bool} (h : handleFilePass H f = .done g ok) :
    FileSafe H f ↔ g.WithinBuffer := endsIn_done h

theorem fileSafe_again {f g : FileRead} (h : handleFilePass H f = .again g) :
    FileSafe H f ↔ FileSafe H g := endsIn_again h

theorem fileSafe_tail (f : FileRead) (hi : f.i < 64) (hf : f.file.length < headerLen)
    (hw : f.WithinBuffer)
    (ih : ∀ g : FileRead, g.i = f.i + 1 → g.WithinBuffer →
      (FileSafe H g ↔ ¬ ShortHeader H g.file g.eventCopy g.i)) : FileSafe H f := by
  have hb := handleFilePass_tail (H := H) f hi hf
  cases hset : f.readTail.settle H f.file.length with
  | done g ok =>
    rw [hset] at hb
    rw [fileSafe_done hb]
    intro q hq
    rw [(FileRead.settle_done hset).1] at hq
    exact FileRead.readTail_within hw q hq
  | again g =>
    rw [hset] at hb
    obtain ⟨-, -, hgf, hgi, hgr⟩ := FileRead.settle_again hset
    have hgw : g.WithinBuffer := by
      intro q hq
      rw [hgr] at hq
      exact FileRead.readTail_within hw q hq
    rw [fileSafe_again hb, ih g hgi hgw]
    apply not_shortHeader_of_tail
    rw [hgf]
    exact Nat.succ_pos 7

/-- A header that announces less than a header: the difference wraps around, and what is asked for is
larger than any buffer. -/
theorem not_fileSafe_of_short (f : FileRead) (hi : f.i < 64) (h8 : headerLen ≤ f.file.length)
    (hshort : headerSize f.file < headerLen) (hw : f.WithinBuffer) : ¬ FileSafe H f := by
  intro hs
  have hb := handleFilePass_record (H := H) f hi h8
  have hneg := sizeT_short hshort
  cases hset : (f.readRecord (sizeT (headerSize f.file) headerLen)).settle H (headerLen +
      ((f.file.drop headerLen).take (sizeT (headerSize f.file) headerLen)).length) with
  | done g ok =>
    rw [hset] at hb
    rw [fileSafe_done hb] at hs
    apply hneg
    rw [← FileRead.readRecord_within hw]
    intro q hq
    rw [← (FileRead.settle_done hset).1] at hq
    exact hs q hq
  | again g =>
    have hlen := (FileRead.settle_again hset).1
    have hcopy : headerSize (f.readRecord (sizeT (headerSize f.file) headerLen)).eventCopy =
        headerSize f.file := headerSize_loaded _ h8
    omega

/-- A header that is at least as long as a header: the record is read within the buffer. -/
theorem fileSafe_record (f : FileRead) (hi : f.i < 64) (h8 : headerLen ≤ f.file.length)
    (hn : headerLen ≤ headerSize f.file) (hw : f.WithinBuffer)
    (ih : ∀ g : FileRead, g.i = f.i + 1 → g.WithinBuffer →
      (FileSafe H g ↔ ¬ ShortHeader H g.file g.eventCopy g.i)) :
    FileSafe H f ↔ ¬ ShortHeader H f.file f.eventCopy f.i := by
  have hshort : ¬ headerSize f.file < headerLen := by omega
  have hb := handleFilePass_record (H := H) f hi h8
  rw [sizeT_long hn (headerSize_lt _)] at hb
  have hroom : headerSize f.file - headerLen ≤ bufLen - headerLen := by
    have := headerSize_lt f.file
    omega
  have hrw := (FileRead.readRecord_within hw).mpr hroom
  have hcopy : headerSize (f.readRecord (headerSize f.file - headerLen)).eventCopy =
      headerSize f.file := headerSize_loaded _ h8
  cases hset : (f.readRecord (headerSize f.file - headerLen)).settle H (headerLen +
      ((f.file.drop headerLen).take (headerSize f.file - headerLen)).length) with
  | done g ok =>
    rw [hset] at hb
    obtain ⟨hgr, hstop⟩ := FileRead.settle_done hset
    rw [fileSafe_done hb]
    refine ⟨fun _ => ?_, fun _ => ?_⟩
    · intro ⟨file', copy', i', hr, _, _, hlt⟩
      cases hr with
      | here => exact hshort hlt
      | next _ _ _ hl hp _ =>
        refine hstop ⟨?_, _, hp⟩
        rw [hcopy]
        simp only [List.length_take, List.length_drop]
        omega
    · intro q hq
      rw [hgr] at hq
      exact hrw q hq
  | again g =>
    rw [hset] at hb
    obtain ⟨hlen, hp, hgf, hgi, hgr⟩ := FileRead.settle_again hset
    have hgw : g.WithinBuffer := by
      intro q hq
      rw [hgr] at hq
      exact hrw q hq
    have hgf' : g.file = f.file.drop (headerSize f.file) := by
      rw [hgf]
      show (f.file.drop headerLen).drop (headerSize f.file - headerLen) = _
      rw [List.drop_drop]
      congr 1
      omega
    have hl : headerSize f.file ≤ f.file.length := by
      rw [hcopy] at hlen
      simp only [List.length_take, List.length_drop] at hlen
      omega
    rw [fileSafe_again hb, ih g hgi hgw, hgf', hgi]
    refine not_congr ⟨?_, ?_⟩
    · intro ⟨file', copy', i', hr, hrest⟩
      exact ⟨file', copy', i', .next hi h8 hn hl hp hr, hrest⟩
    · intro ⟨file', copy', i', hr, hi', hl', hlt⟩
      cases hr with
      | here => exact absurd hlt hshort
      | next _ _ _ _ hp' h =>
        obtain rfl : g.eventCopy = _ := Option.some.inj (hp.symm.trans hp')
        exact ⟨file', copy', i', h, hi', hl', hlt⟩

/-- `handle_file_event` stays within its buffer exactly when no header it reads
announces less than a header. -/
theorem fileSafe_iff (f : FileRead) (hw : f.WithinBuffer) :
    FileSafe H f ↔ ¬ ShortHeader H f.file f.eventCopy f.i := by
  induction hk : 64 - f.i generalizing f with
  | zero =>
    have hi : ¬ f.i < 64 := by omega
    rw [fileSafe_done (handleFilePass_stop f hi)]
    refine ⟨fun _ => ?_, fun _ => hw⟩
    intro ⟨file', copy', i', hr, hi', _⟩
    cases hr with
    | here => exact hi hi'
    | next hi₁ _ _ _ _ _ => exact hi hi₁
  | succ k ih =>
    have hi : f.i < 64 := by omega
    have ih' : ∀ g : FileRead, g.i = f.i + 1 → g.WithinBuffer →
        (FileSafe H g ↔ ¬ ShortHeader H g.file g.eventCopy g.i) := by
      intro g hg hgw
      exact ih g hgw (by omega)
    by_cases hf : f.file.length < headerLen
    · exact ⟨fun _ => not_shortHeader_of_tail hf, fun _ => fileSafe_tail f hi hf hw ih'⟩
    · have h8 : headerLen ≤ f.file.length := by omega
      by_cases hshort : headerSize f.file < headerLen
      · exact ⟨fun hs => absurd hs (not_fileSafe_of_short f hi h8 hshort hw),
          fun hns => absurd ⟨_, _, _, .here _ _ _, hi, h8, hshort⟩ hns⟩
      · exact fileSafe_record f hi h8 (by omega) hw ih'

end File

/-- Every receiver returns, with its cursor inside the bytes received and its reads inside
the buffer, exactly when it meets no header of size 0 that is accepted (or passed over)
forever, or, for a file, no header of a size below its own length. `block_read_event` is
left with a freed block at a shutdown of the peer. -/
theorem receivers_robust_iff (H : Handler) :
    (∀ buf n, n ≤ buf.length →
      ((Halts (tcpProcessPass H) ⟨buf, 0, n, []⟩ ∧
          ∀ w, Visits (tcpProcessPass H) ⟨buf, 0, n, []⟩ w → w.event + w.size = n) ↔
        ¬ Stalls H (headerLen + 1) buf n)) ∧
    (∀ buf n, n ≤ buf.length →
      ((Halts (cdevEventPass H) ⟨buf, 0, n, []⟩ ∧
          ∀ w, Visits (cdevEventPass H) ⟨buf, 0, n, []⟩ w → w.event + w.size = n) ↔
        ¬ Stalls H headerLen buf n)) ∧
    (∀ init b, b.Inside → b.freed = false →
      ((BlockSafe H init b ∧ ∀ b', Visits (blockReadPass H init) b b' → b'.Inside) ↔
        ¬ BlockStalls H init b ∧ ¬ BlockHangsUp H init b)) ∧
    (∀ file copy, FileSafe H ⟨file, copy, 0, [], []⟩ ↔ ¬ ShortHeader H file copy 0) := by
  have hwalk (least : Nat) (buf : List UInt8) (n : Nat) (hn : n ≤ buf.length) :
      (Halts (walkPass H least) ⟨buf, 0, n, []⟩ ∧
          ∀ w, Visits (walkPass H least) ⟨buf, 0, n, []⟩ w → w.event + w.size = n) ↔
        ¬ Stalls H least buf n := by
    have hin : Walk.Inside ⟨buf, 0, n, []⟩ := by
      simp only [Walk.Inside]
      omega
    have hiff : Halts (walkPass H least) _ ↔ _ := walk_halts_iff _ hin
    refine ⟨fun h => hiff.mp h.1, fun h => ⟨hiff.mpr h, ?_⟩⟩
    intro w hv
    have hsum := (walk_inside hin hv).2
    simp only at hsum
    omega
  refine ⟨hwalk (headerLen + 1), hwalk headerLen, ?_, ?_⟩
  · intro init b hin ha
    have hiff : BlockSafe H init b ↔ _ := blockSafe_iff b hin ha
    exact ⟨fun h => hiff.mp h.1, fun h => ⟨hiff.mpr h, fun b' hv => block_inside hin hv⟩⟩
  · intro file copy
    apply fileSafe_iff
    intro q hq
    simp at hq

/-- One record of nine bytes, with the cursor at 9 in the end. -/
theorem receivers_robust_iff_one_record :
    Halts (tcpProcessPass echo) ⟨[3, 0, 0, 0, 0, 0, 9, 0, 7], 0, 9, []⟩ ∧
      ∀ w, Visits (tcpProcessPass echo) ⟨[3, 0, 0, 0, 0, 0, 9, 0, 7], 0, 9, []⟩ w →
        w.event + w.size = 9 := by
  refine ((receivers_robust_iff echo).1 _ 9 (by decide)).mpr ?_
  intro ⟨mem', n', hr, hl, h0, _⟩
  cases hr with
  | here => simp [headerSize] at h0
  | next _ _ _ _ h =>
    simp only [headerSize] at h
    cases h with
    | here => simp [headerLen] at hl
    | next hl' _ _ _ _ => simp [headerLen] at hl'

/-- Nine zero bytes: the header has size 0 and nothing is ever consumed. In a file, a header
of size 0 asks `fread` for 2^64 - 8 bytes. A connection that is shut down behind the first
five bytes of a record: `block_read_event` goes on with the block that `tcp_recv` has freed. -/
theorem receivers_not_robust :
    ¬ Halts (tcpProcessPass echo) ⟨List.replicate 9 0, 0, 9, []⟩ ∧
    ¬ FileSafe echo ⟨List.replicate 9 0, List.replicate bufLen 0, 0, [], []⟩ ∧
    ¬ BlockSafe echo true ⟨[3, 0, 0, 0, 0] ++ List.replicate (bufLen - 5) 0, 0, 5, [.shutdown],
      [], [], .tcp, false⟩ := by
  refine ⟨?_, ?_, ?_⟩
  · intro h
    refine ((walk_halts_iff (H := echo) _ ?_).mp h) ?_
    · simp [Walk.Inside]
    · refine ⟨_, _, .here _ _, Nat.le_refl 9, rfl, ?_⟩
      intro k
      induction k with
      | zero => exact ⟨_, rfl⟩
      | succ k ih => exact ih
  · intro h
    refine ((fileSafe_iff (H := echo) _ ?_).mp h) ?_
    · intro q hq
      simp at hq
    · refine ⟨_, _, _, .here _ _ _, by decide, ?_, ?_⟩
      · simp [headerLen]
      · simp [headerSize, headerLen]
  · intro h
    refine ((blockSafe_iff _ ⟨?_, ?_⟩ rfl).mp h).2 ⟨_, .here _, rfl, ?_, rfl, [], rfl⟩
    · rw [List.length_append, List.length_replicate]
      rfl
    · simp [bufLen]
    · simp [Block.consume, Block.whole, headerLen]

end PerfProf.EventSpread
