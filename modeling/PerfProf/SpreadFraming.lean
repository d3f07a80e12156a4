import PerfProf.EventSpread

/-! Record boundaries do not depend on read boundaries: whatever the reads return,
each receiver hands on exactly the complete records received so far and keeps
the incomplete one. -/
namespace PerfProf.EventSpread
open PerfProf.Loop PerfProf.Framing

theorem headerSize_take (m : List UInt8) : headerSize (m.take headerLen) = headerSize m := by
  simp [headerSize, headerLen, List.getD_eq_getElem?_getD]

theorem headerType_take (m : List UInt8) : headerType (m.take headerLen) = headerType m := by
  simp [headerType, headerLen, List.getD_eq_getElem?_getD]

theorem headerType_append (xs ys : List UInt8) (h : headerLen ≤ xs.length) :
    headerType (xs ++ ys) = headerType xs := by
  rw [← headerType_take (xs ++ ys), List.take_append_of_le_length h, headerType_take]

/-- The callbacks stay inside the record, and accept it. -/
structure Handler.Handles (H : Handler) (r : List UInt8) : Prop where
  accepts : ∀ rest, ∃ m, H.processEvent (r ++ rest) = some m
  process_inside : ∀ rest m, H.processEvent (r ++ rest) = some m → m.drop r.length = rest
  convert_inside : ∀ rest, (H.eventConvert (r ++ rest)).2.drop r.length = rest
  convert_local : ∀ rest, (H.eventConvert (r ++ rest)).1 = (H.eventConvert r).1

/-- `u` is held, `wire socket ++ later` is to come, `log` has been handed on, and what is
held is not a whole record. -/
def Framed (records : List (List UInt8)) (later : List UInt8) (log : List (List UInt8))
    (u : List UInt8) (socket : List Arrival) : Prop :=
  ∃ rem, records = log ++ rem ∧ u ++ wire socket ++ later = rem.flatten ∧
    ∀ r rest, rem = r :: rest → u.length < r.length

/-- What is held is less than one record, so that there is room to read. -/
theorem Framed.length_lt {records log : List (List UInt8)} {later u : List UInt8}
    {socket : List Arrival} (hrec : ∀ r ∈ records, perfHeader.Record r)
    (h : Framed records later log u socket) : u.length < bufLen := by
  obtain ⟨rem, hrecords, hstream, hstop⟩ := h
  cases rem with
  | nil =>
    have hlen := congrArg List.length hstream
    simp only [List.length_append, List.flatten_nil, List.length_nil] at hlen
    simp only [bufLen]
    omega
  | cons r rest =>
    have hr := hrec r (by rw [hrecords]; simp)
    have hlt := hstop r rest rfl
    have hsize : headerSize r = r.length := hr.2
    have := headerSize_lt r
    omega

/-- When all the bytes of the records have been received, all the records have been handed on. -/
theorem Framed.all {records log : List (List UInt8)} {u : List UInt8}
    (h : Framed records [] log u []) : log = records ∧ u = [] := by
  obtain ⟨rem, hrecords, hstream, hstop⟩ := h
  simp only [wire, List.map_nil, List.flatten_nil, List.append_nil] at hstream
  cases rem with
  | nil => exact ⟨by simp [hrecords], by simpa using hstream⟩
  | cons r rest =>
    have hlt := hstop r rest rfl
    have hlen := congrArg List.length hstream
    rw [List.flatten_cons, List.length_append] at hlen
    omega

theorem recv_spec (len : Nat) (socket : List Arrival) :
    (recv len socket).1.bytes ++ wire (recv len socket).2 = wire socket ∧
      (recv len socket).1.bytes.length ≤ len := by
  cases socket with
  | nil => simp [recv, wire, Recv.bytes]
  | cons a rest =>
    cases a with
    | error | shutdown => simp [recv, wire, Arrival.bytes, Recv.bytes]
    | data bs =>
      by_cases h : bs.length ≤ len
      · simp [recv, h, wire, Arrival.bytes, Recv.bytes]
      · have hle : len ≤ bs.length := Nat.le_of_not_le h
        simp [recv, h, wire, Arrival.bytes, Recv.bytes, ← List.append_assoc, hle]

/-- The stream neither ends nor fails. -/
def Intact (socket : List Arrival) : Prop := Arrival.shutdown ∉ socket ∧ Arrival.error ∉ socket

theorem Intact.tail {a : Arrival} {rest : List Arrival} (h : Intact (a :: rest)) : Intact rest :=
  ⟨fun hs => h.1 (List.mem_cons_of_mem a hs), fun he => h.2 (List.mem_cons_of_mem a he)⟩

/-- A read of an intact stream uses up an arrival when it brings no bytes. -/
theorem recv_intact (len : Nat) {socket : List Arrival} (h : Intact socket) :
    ∃ bs rest, recv len socket = (.data bs, rest) ∧ Intact rest ∧ rest.length ≤ socket.length ∧
      (0 < len → bs = [] → socket = [] ∧ rest = [] ∨ rest.length < socket.length) := by
  cases socket with
  | nil => exact ⟨[], [], rfl, h, Nat.le_refl _, fun _ _ => Or.inl ⟨rfl, rfl⟩⟩
  | cons a rest =>
    have hrest := h.tail
    cases a with
    | error => exact absurd List.mem_cons_self h.2
    | shutdown => exact absurd List.mem_cons_self h.1
    | data bs =>
      by_cases hl : bs.length ≤ len
      · exact ⟨bs, rest, by simp [recv, hl], hrest, Nat.le_succ _,
          fun _ _ => Or.inr (Nat.lt_succ_self _)⟩
      · refine ⟨bs.take len, .data (bs.drop len) :: rest, by simp [recv, hl],
          ⟨by simpa using hrest.1, by simpa using hrest.2⟩, Nat.le_refl _, fun hlen hnil => ?_⟩
        have := congrArg List.length hnil
        rw [List.length_take, List.length_nil] at this
        omega

section Walk
variable {H : Handler} {least : Nat}

def Walk.unread (w : Walk) : List UInt8 := w.here.take w.size

theorem Walk.unread_length {w : Walk} (h : w.size ≤ w.here.length) :
    w.unread.length = w.size := by
  simp [Walk.unread, h]

theorem Walk.headerSize_unread {w : Walk} (h : w.size ≤ w.here.length)
    (hl : headerLen ≤ w.size) : headerSize w.here = headerSize w.unread := by
  have hd : w.here = w.unread ++ w.here.drop w.size := (List.take_append_drop _ _).symm
  rw [hd, headerSize_append _ _ (by rw [Walk.unread_length h]; exact hl)]

/-- The loop test finds a record exactly when the next record of the stream is held. -/
theorem Walk.test_iff {w : Walk} {rs : List (List UInt8)} {later : List UInt8}
    (hlo : headerLen ≤ least) (hhi : least ≤ headerLen + 1)
    (hrs : ∀ r ∈ rs, perfHeader.Record r) (hsize : w.size ≤ w.here.length)
    (hstream : w.unread ++ later = rs.flatten) :
    (least ≤ w.size ∧ headerSize w.here ≤ w.size) ↔
      ∃ r rest, rs = r :: rest ∧ r.length ≤ w.size := by
  have h := perfHeader.whole_iff hrs hstream hlo hhi
  rw [Walk.unread_length hsize] at h
  rw [← h]
  constructor
  · intro ⟨h1, h2⟩
    exact ⟨h1, by rwa [Walk.headerSize_unread hsize (by omega)] at h2⟩
  · intro ⟨h1, h2⟩
    exact ⟨h1, by rwa [Walk.headerSize_unread hsize (by omega)]⟩

theorem walkPass_record {w : Walk} {r later : List UInt8} {rest : List (List UInt8)}
    (hlo : headerLen ≤ least) (hhi : least ≤ headerLen + 1)
    (hrs : ∀ q ∈ r :: rest, perfHeader.Record q) (hH : H.Handles r)
    (hsize : w.size ≤ w.here.length) (hbuf : w.event ≤ w.buf.length)
    (hstream : w.unread ++ later = (r :: rest).flatten) (hlen : r.length ≤ w.size) :
    ∃ w', walkPass H least w = .again w' ∧ w'.log = w.log ++ [r] ∧
      w'.event + w'.size = w.event + w.size ∧ w'.size = w.size - r.length ∧
      w'.buf.length = w.buf.length ∧ w'.size ≤ w'.here.length ∧
      w'.event ≤ w'.buf.length ∧ w'.unread ++ later = rest.flatten := by
  have hr : perfHeader.Record r := hrs r (by simp)
  have hr8 : headerLen < r.length := hr.1
  have htest := (Walk.test_iff hlo hhi hrs hsize hstream).mpr ⟨r, rest, rfl, hlen⟩
  rw [List.flatten_cons] at hstream
  have hu : w.unread.length = w.size := Walk.unread_length hsize
  obtain ⟨htake, hdrop⟩ := append_split hstream (by omega)
  have hn : headerSize w.here = r.length := by
    rw [Walk.headerSize_unread hsize (by omega)]
    exact perfHeader.size_eq_head hr (by rw [hu]; simp only [perfHeader]; omega) hstream
  have hrec : w.here.take r.length = r := by
    rw [Walk.unread, List.take_take, Nat.min_eq_left hlen] at htake
    exact htake
  have hhere : w.here = r ++ w.here.drop r.length := by
    calc
      w.here = w.here.take r.length ++ w.here.drop r.length := (List.take_append_drop _ _).symm
      _ = r ++ w.here.drop r.length := by rw [hrec]
  obtain ⟨m, hm⟩ := hH.accepts (w.here.drop r.length)
  have hmd := hH.process_inside _ _ hm
  rw [← hhere] at hm
  have hml : m.length = w.here.length := H.process_length _ _ hm
  have hhl : w.here.length = w.buf.length - w.event := by simp [Walk.here]
  have hafter : (w.buf.take w.event ++ m).drop (w.event + r.length) = w.here.drop r.length := by
    rw [← hmd, List.drop_append, List.length_take, Nat.min_eq_left hbuf]
    simp [List.drop_eq_nil_of_le, hbuf]
  refine ⟨⟨w.buf.take w.event ++ m, w.event + r.length, w.size - r.length, w.log ++ [r]⟩,
    ?_, rfl, ?_, rfl, ?_, ?_, ?_, ?_⟩
  · simp only [walkPass]
    rw [if_pos htest]
    simp only [hm, hn, hrec]
  · show w.event + r.length + (w.size - r.length) = w.event + w.size
    omega
  · simp only [List.length_append, List.length_take]
    omega
  · simp only [Walk.here] at hafter ⊢
    rw [hafter]
    simp only [List.length_drop]
    omega
  · simp only [List.length_append, List.length_take]
    omega
  · rw [← hdrop]
    simp only [Walk.unread, Walk.here] at hafter ⊢
    rw [hafter, List.drop_take]

/-- The whole loop: it ends, hands on every record that is held, and stops in front of the
first one that is not. -/
theorem walk_frames {rs : List (List UInt8)} (later : List UInt8)
    (hlo : headerLen ≤ least) (hhi : least ≤ headerLen + 1)
    (hrs : ∀ r ∈ rs, perfHeader.Record r) (hH : ∀ r ∈ rs, H.Handles r) :
    ∀ w : Walk, w.size ≤ w.here.length → w.event ≤ w.buf.length →
      w.unread ++ later = rs.flatten →
      ∃ n w' rem, iterate (walkPass H least) n w = some (w', true) ∧
        w.log ++ rs = w'.log ++ rem ∧ w'.event + w'.size = w.event + w.size ∧
        w'.buf.length = w.buf.length ∧ w'.size ≤ w'.here.length ∧
        w'.unread ++ later = rem.flatten ∧ ∀ r rest, rem = r :: rest → w'.size < r.length := by
  induction rs with
  | nil =>
    intro w hsize hbuf hstream
    have hno : ¬ (least ≤ w.size ∧ headerSize w.here ≤ w.size) := by
      rw [Walk.test_iff hlo hhi hrs hsize hstream]
      simp
    have hb : walkPass H least w = .done w true := by
      rw [walkPass, if_neg hno]
    exact ⟨1, w, [], iterate_done hb 0, rfl, rfl, rfl, hsize, hstream, by simp⟩
  | cons r rest ih =>
    intro w hsize hbuf hstream
    by_cases hlen : r.length ≤ w.size
    · obtain ⟨w', hb, hlog, hend, -, hbl, hsz, hev, hst⟩ :=
        walkPass_record hlo hhi hrs (hH r (by simp)) hsize hbuf hstream hlen
      obtain ⟨n, w₂, rem, hit, hl2, he2, hb2, hs2, hst2, hstop⟩ :=
        ih (fun q hq => hrs q (List.mem_cons_of_mem r hq))
          (fun q hq => hH q (List.mem_cons_of_mem r hq)) w' hsz hev hst
      refine ⟨n+1, w₂, rem, ?_, ?_, by omega, by omega, hs2, hst2, hstop⟩
      · rwa [iterate_again hb]
      · rw [← hl2, hlog]
        simp
    · have hno : ¬ (least ≤ w.size ∧ headerSize w.here ≤ w.size) := by
        rw [Walk.test_iff hlo hhi hrs hsize hstream]
        intro ⟨q, qs, he, hq⟩
        obtain ⟨rfl, rfl⟩ : r = q ∧ rest = qs := by simpa using he
        exact hlen hq
      have hb : walkPass H least w = .done w true := by
        rw [walkPass, if_neg hno]
      refine ⟨1, w, r :: rest, iterate_done hb 0, rfl, rfl, rfl, hsize, hstream, ?_⟩
      intro q qs he
      obtain ⟨rfl, rfl⟩ : r = q ∧ rest = qs := by simpa using he
      omega

end Walk

section Receivers
variable {H : Handler} {records : List (List UInt8)} {later : List UInt8}

structure Receiver.Sound (records : List (List UInt8)) (later : List UInt8) (s : Receiver) :
    Prop where
  copy : s.eventCopy.length = bufLen
  fits : s.read ≤ bufLen
  intact : Intact s.socket
  framed : Framed records later s.log (s.eventCopy.take s.read) s.socket

theorem Receiver.Sound.room {s : Receiver} (hs : s.Sound records later)
    (hrec : ∀ r ∈ records, perfHeader.Record r) : 0 < bufLen - s.read := by
  have hlt := hs.framed.length_lt hrec
  have hcopy := hs.copy
  have hfits := hs.fits
  rw [List.length_take] at hlt
  omega

/-- The remainder moved to the front of `event_copy`. -/
def Walk.compact (w : Walk) : List UInt8 :=
  if w.size = 0 then w.buf else blit w.buf 0 (slice w.buf w.event w.size)

theorem Walk.compact_spec {w : Walk} (hsize : w.size ≤ w.here.length) :
    w.compact.length = w.buf.length ∧ w.compact.take w.size = w.unread := by
  have hu := Walk.unread_length hsize
  have hs : slice w.buf w.event w.size = w.unread := rfl
  have hh : w.here.length ≤ w.buf.length := by simp [Walk.here]
  by_cases h0 : w.size = 0
  · simp [Walk.compact, Walk.unread, h0]
  · rw [Walk.compact, if_neg h0, hs]
    refine ⟨blit_length _ (by omega), ?_⟩
    have h := slice_blit_zero w.buf w.unread
    rwa [hu, slice, List.drop_zero] at h

/-- One read followed by the record loop, for either loop test. -/
theorem receive_chunk {least : Nat} {s : Receiver} {bs : List UInt8} {socket : List Arrival}
    (hlo : headerLen ≤ least) (hhi : least ≤ headerLen + 1)
    (hrec : ∀ r ∈ records, perfHeader.Record r) (hH : ∀ r ∈ records, H.Handles r)
    (hs : s.Sound records later) (hrecv : recv (bufLen - s.read) s.socket = (.data bs, socket))
    (hbs : bs ≠ []) :
    ∃ n w, iterate (walkPass H least) n
        ⟨blit s.eventCopy s.read bs, 0, s.read + bs.length, s.log⟩ = some (w, true) ∧
      w.event + w.size = s.read + bs.length ∧
      Receiver.Sound records later ⟨w.compact, w.size, socket, w.log⟩ ∧
      (wire socket).length < (wire s.socket).length ∧ socket.length ≤ s.socket.length := by
  obtain ⟨rem, hrem, hstream, -⟩ := hs.framed
  obtain ⟨hwire, hlen⟩ := recv_spec (bufLen - s.read) s.socket
  rw [hrecv] at hwire hlen
  simp only [Recv.bytes] at hwire hlen
  have hcopy := hs.copy
  have hfits := hs.fits
  obtain ⟨bs', socket', hrecv', hintact, hshorter, -⟩ := recv_intact (bufLen - s.read) hs.intact
  rw [hrecv, Prod.mk.injEq] at hrecv'
  obtain ⟨-, rfl⟩ := hrecv'
  have hbl : (blit s.eventCopy s.read bs).length = bufLen := by
    rw [blit_length _ (by omega), hcopy]
  have hunread : (blit s.eventCopy s.read bs).take (s.read + bs.length) =
      s.eventCopy.take s.read ++ bs := by
    have h : slice (blit s.eventCopy s.read bs) 0 (s.read + bs.length) =
        slice s.eventCopy 0 s.read ++ bs := slice_blit_append s.eventCopy (by omega)
    simpa [slice] using h
  have hsub : ∀ r ∈ rem, r ∈ records := by
    intro r hr
    rw [hrem]
    exact List.mem_append_right _ hr
  obtain ⟨n, w, rem', hit, hlog, hend, hbuf, hsize, hst, hstop⟩ := walk_frames
    (wire socket ++ later) hlo hhi (fun r hr => hrec r (hsub r hr))
    (fun r hr => hH r (hsub r hr)) ⟨blit s.eventCopy s.read bs, 0, s.read + bs.length, s.log⟩
    (by simp only [Walk.here, List.drop_zero]; omega) (Nat.zero_le _)
    (by
      simp only [Walk.unread, Walk.here, List.drop_zero, hunread]
      rw [← hstream, ← hwire]
      simp)
  obtain ⟨hcl, hct⟩ := Walk.compact_spec hsize
  have hwl : w.here.length ≤ w.buf.length := by simp [Walk.here]
  simp only [Nat.zero_add] at hend hbuf hlog
  refine ⟨n, w, hit, hend, ⟨?_, ?_, hintact, rem', ?_, ?_, ?_⟩, ?_, hshorter⟩
  · show w.compact.length = bufLen
    omega
  · show w.size ≤ bufLen
    omega
  · rw [hrem, hlog]
  · show w.compact.take w.size ++ wire socket ++ later = rem'.flatten
    rw [hct, List.append_assoc]
    exact hst
  · intro r rest he
    show (w.compact.take w.size).length < r.length
    rw [hct, Walk.unread_length hsize]
    exact hstop r rest he
  · have hpos : 0 < bs.length := List.length_pos_iff.mpr hbs
    rw [← hwire, List.length_append]
    omega

/-- What the two `EPOLLIN` loops have in common. -/
structure ReceiveLoop (H : Handler) (least : Nat) (f : Nat → Receiver → Option Receiver) :
    Prop where
  idle : ∀ fuel s o socket, recv (bufLen - s.read) s.socket = (o, socket) →
    o.bytes = [] → f (fuel+1) s = some { s with socket := socket }
  data : ∀ fuel s bs socket w, recv (bufLen - s.read) s.socket = (.data bs, socket) → bs ≠ [] →
    iterate (walkPass H least) (fuel+1)
      ⟨blit s.eventCopy s.read bs, 0, s.read + bs.length, s.log⟩ = some (w, true) →
    w.event + w.size = s.read + bs.length →
    f (fuel+1) s = f fuel ⟨w.compact, w.size, socket, w.log⟩

theorem handleInout_loop (H : Handler) : ReceiveLoop H (headerLen + 1) (handleInout H) := by
  constructor
  · intro fuel s o socket hrecv ho
    cases o with
    | error | shutdown => simp only [handleInout, hrecv]
    | data bs =>
      simp only [Recv.bytes] at ho
      subst ho
      simp only [handleInout, hrecv]
  · intro fuel s bs socket w hrecv hbs hit hend
    obtain ⟨b, bs, rfl⟩ := List.exists_cons_of_ne_nil hbs
    have hp : s.read + (b :: bs).length - w.size = w.event := by omega
    have hl : s.read + (b :: bs).length - w.event = w.size := by omega
    simp only [handleInout, hrecv, tcpProcessPass, hit, tcpProcessed, if_true, hp, hl]
    rfl

theorem handleCdevEvent_loop (H : Handler) : ReceiveLoop H headerLen (handleCdevEvent H) := by
  constructor
  · intro fuel s o socket hrecv ho
    cases o with
    | error | shutdown => simp only [handleCdevEvent, hrecv]
    | data bs =>
      simp only [Recv.bytes] at ho
      subst ho
      simp only [handleCdevEvent, hrecv]
  · intro fuel s bs socket w hrecv hbs hit hend
    obtain ⟨b, bs, rfl⟩ := List.exists_cons_of_ne_nil hbs
    simp only [handleCdevEvent, hrecv, cdevEventPass, hit]
    rfl

/-- One notification: the loop ends and leaves a sound receiver, at the end of the socket or
behind one more read that brought nothing. -/
theorem ReceiveLoop.frames {least : Nat} {f : Nat → Receiver → Option Receiver}
    (hf : ReceiveLoop H least f) (hlo : headerLen ≤ least) (hhi : least ≤ headerLen + 1)
    (hrec : ∀ r ∈ records, perfHeader.Record r) (hH : ∀ r ∈ records, H.Handles r)
    (s : Receiver) (hs : s.Sound records later) :
    ∃ N s', (∀ n, N ≤ n → f n s = some s') ∧ s'.Sound records later ∧
      (s'.socket = [] ∨ s'.socket.length < s.socket.length) := by
  induction hm : (wire s.socket).length using Nat.strongRecOn generalizing s with
  | _ k ih =>
    obtain ⟨bs, socket, hrecv, hintact, -, hidle⟩ := recv_intact (bufLen - s.read) hs.intact
    by_cases hbs : bs = []
    · have hwire := (recv_spec (bufLen - s.read) s.socket).1
      rw [hrecv, hbs] at hwire
      refine ⟨1, { s with socket := socket }, ?_, ⟨hs.copy, hs.fits, hintact, ?_⟩, ?_⟩
      · intro n hn
        obtain ⟨j, rfl⟩ : ∃ j, n = j+1 := ⟨n-1, by omega⟩
        exact hf.idle j s _ socket hrecv hbs
      · obtain ⟨rem, h1, h2, h3⟩ := hs.framed
        refine ⟨rem, h1, ?_, h3⟩
        rw [← h2, ← hwire]
        simp [Recv.bytes]
      · exact (hidle (hs.room hrec) hbs).imp_left And.right
    · obtain ⟨n₀, w, hit, hend, hsound, hlt, hle⟩ := receive_chunk hlo hhi hrec hH hs hrecv hbs
      obtain ⟨N, s', hN, hs', hdrain⟩ :=
        ih _ (hm ▸ hlt) ⟨w.compact, w.size, socket, w.log⟩ hsound rfl
      refine ⟨n₀ + N + 1, s', ?_, hs', hdrain.imp_right fun h => Nat.lt_of_lt_of_le h hle⟩
      intro n hn
      obtain ⟨j, rfl⟩ : ∃ j, n = j+1 := ⟨n-1, by omega⟩
      rw [hf.data j s bs socket w hrecv hbs (iterate_mono hit (by omega)) hend]
      exact hN j (by omega)

/-- Several notifications one after the other. -/
def notify (f : Nat → Receiver → Option Receiver) (fuel : Nat) : Nat → Receiver → Option Receiver
  | 0, s => some s
  | k+1, s => (f fuel s).bind (notify f fuel k)

theorem ReceiveLoop.notify_frames {least : Nat} {f : Nat → Receiver → Option Receiver}
    (hf : ReceiveLoop H least f) (hlo : headerLen ≤ least) (hhi : least ≤ headerLen + 1)
    (hrec : ∀ r ∈ records, perfHeader.Record r) (hH : ∀ r ∈ records, H.Handles r)
    (k : Nat) (s : Receiver) (hs : s.Sound records later) :
    ∃ N s', (∀ n, N ≤ n → notify f n k s = some s') ∧ s'.Sound records later ∧
      (s.socket.length ≤ k → s'.socket = []) := by
  induction k generalizing s with
  | zero => exact ⟨0, s, fun _ _ => rfl, hs, fun h => List.length_eq_zero_iff.mp (Nat.le_zero.mp h)⟩
  | succ k ih =>
    obtain ⟨N₁, s₁, h₁, hs₁, hdrain⟩ := hf.frames hlo hhi hrec hH s hs
    obtain ⟨N₂, s₂, h₂, hs₂, hempty⟩ := ih s₁ hs₁
    refine ⟨max N₁ N₂, s₂, ?_, hs₂, fun hk => hempty ?_⟩
    · intro n hn
      rw [notify, h₁ n (by omega), Option.bind_some, h₂ n (by omega)]
    · rcases hdrain with hnil | hlt
      · simp [hnil]
      · omega

end Receivers

section BlockRead
variable {H : Handler} {records : List (List UInt8)} {later : List UInt8}

/-- Records that `block_read_event` returns; the others it deals with itself. -/
def Handler.returns (H : Handler) (r : List UInt8) : Bool :=
  decide (headerType r ≠ perfRecordTp) &&
    (decide (headerType r ≠ perfRecordSample) || (H.eventConvert r).1.isSome)

def Block.unread (b : Block) : List UInt8 := b.here.take b.size

structure Block.Sound (H : Handler) (records : List (List UInt8)) (later : List UInt8)
    (b : Block) : Prop where
  buf : b.eventBuf.length = bufLen
  fits : b.event + b.size ≤ bufLen
  intact : Intact b.socket
  alive : b.freed = false
  framed : ∃ rem, records = b.log ++ rem ∧
    b.consume.unread ++ wire b.socket ++ later = rem.flatten
  yields : b.yielded = b.log.filter H.returns

/-- The bytes that have not been handed on, held or on the wire. -/
def Block.ahead (b : Block) : List UInt8 := b.consume.unread ++ wire b.socket

/-- What the calls with `init` use up: bytes, reads, and the record returned last. -/
def Block.left (b : Block) : Nat :=
  2 * b.ahead.length + (wire b.socket).length + b.socket.length + b.whole.toNat

/-- Nothing is left to read, and no whole record is held. -/
def Block.Drained (b : Block) : Prop := b.socket = [] ∧ b.whole = false

theorem Block.size_le_here {b : Block} (h : b.event + b.size ≤ b.eventBuf.length) :
    b.size ≤ b.here.length := by
  simp only [Block.here, List.length_drop]
  omega

theorem Block.unread_length {b : Block} (h : b.event + b.size ≤ b.eventBuf.length) :
    b.unread.length = b.size := by
  have := Block.size_le_here h
  simp [Block.unread, this]

theorem Block.whole_iff {b : Block} {rs : List (List UInt8)}
    (hrs : ∀ r ∈ rs, perfHeader.Record r) (hfits : b.event + b.size ≤ b.eventBuf.length)
    (hstream : b.unread ++ later = rs.flatten) :
    b.whole = true ↔ ∃ r rest, rs = r :: rest ∧ r.length ≤ b.size := by
  have h := Walk.test_iff (w := ⟨b.eventBuf, b.event, b.size, []⟩) (Nat.le_succ headerLen)
    (Nat.le_refl _) hrs (Block.size_le_here hfits) hstream
  rw [← h]
  simp only [Block.whole, Bool.and_eq_true, decide_eq_true_eq]
  exact Iff.rfl

theorem Block.consume_spec (b : Block) :
    b.consume.eventBuf = b.eventBuf ∧ b.consume.event + b.consume.size = b.event + b.size ∧
      b.consume.socket = b.socket ∧ b.consume.log = b.log ∧ b.consume.yielded = b.yielded ∧
      b.consume.freed = b.freed ∧ b.consume.type = b.type := by
  by_cases h : b.whole = true
  · have h2 : headerSize b.here ≤ b.size := by
      simp only [Block.whole, Bool.and_eq_true, decide_eq_true_eq] at h
      exact h.2
    simp only [Block.consume, h, if_true, true_and]
    simp
    omega
  · simp [Block.consume, h]

/-- A read leaves the same unread bytes in front of the same stream. -/
structure Block.Refilled (b b' : Block) : Prop where
  buf : b'.eventBuf.length = bufLen
  fits : b'.event + b'.size ≤ bufLen
  intact : Intact b'.socket
  alive : b'.freed = false
  stream : b'.unread ++ wire b'.socket = b.unread ++ wire b.socket
  log : b'.log = b.log
  yielded : b'.yielded = b.yielded
  shorter : (wire b'.socket).length + b'.socket.length ≤ (wire b.socket).length + b.socket.length

theorem Block.refill_spec {b : Block} (hbuf : b.eventBuf.length = bufLen)
    (hfits : b.event + b.size ≤ bufLen) (hok : Intact b.socket) (halive : b.freed = false) :
    ∃ b', b.refill = (b', true) ∧ b.Refilled b' ∧
      (b.size < bufLen → b.socket = [] ∧ b'.socket = [] ∨ (wire b'.socket).length +
        b'.socket.length < (wire b.socket).length + b.socket.length) := by
  obtain ⟨bs, rest, hrecv, hrest, hshorter, hidle⟩ := recv_intact (bufLen - b.size) hok
  obtain ⟨hwire, hlen⟩ := recv_spec (bufLen - b.size) b.socket
  rw [hrecv] at hwire hlen
  simp only [Recv.bytes] at hwire hlen
  have hwl := congrArg List.length hwire
  rw [List.length_append] at hwl
  have hu := Block.unread_length (b := b) (by omega)
  let buf := if b.size ≠ 0 ∧ b.event ≠ 0 then
    blit b.eventBuf 0 (slice b.eventBuf b.event b.size) else b.eventBuf
  have hmoved : buf.length = bufLen ∧ buf.take b.size = b.unread := by
    by_cases hc : b.size ≠ 0 ∧ b.event ≠ 0
    · have hs : slice b.eventBuf b.event b.size = b.unread := rfl
      simp only [buf, if_pos hc, hs]
      refine ⟨by rw [blit_length _ (by omega), hbuf], ?_⟩
      have h := slice_blit_zero b.eventBuf b.unread
      rwa [hu, slice, List.drop_zero] at h
    · simp only [buf, if_neg hc]
      refine ⟨hbuf, ?_⟩
      by_cases h0 : b.size = 0
      · simp [Block.unread, h0]
      · have he : b.event = 0 := by
          by_contra he
          exact hc ⟨h0, he⟩
        simp [Block.unread, Block.here, he]
  obtain ⟨hbl, hbt⟩ := hmoved
  have hnew : (blit buf b.size bs).take (b.size + bs.length) = b.unread ++ bs := by
    have h : slice (blit buf b.size bs) 0 (b.size + bs.length) = slice buf 0 b.size ++ bs :=
      slice_blit_append buf (by omega)
    rw [slice, slice, List.drop_zero, List.drop_zero, hbt] at h
    exact h
  refine ⟨{ b with eventBuf := blit buf b.size bs, event := 0, size := b.size + bs.length,
                   socket := rest }, ?_, ⟨?_, ?_, hrest, halive, ?_, rfl, rfl, ?_⟩, fun hroom => ?_⟩
  · simp only [Block.refill, hrecv]
    rfl
  · show (blit buf b.size bs).length = bufLen
    rw [blit_length _ (by omega), hbl]
  · show 0 + (b.size + bs.length) ≤ bufLen
    omega
  · simp only [Block.unread, Block.here, List.drop_zero] at hnew ⊢
    rw [hnew, List.append_assoc, hwire]
  · show (wire rest).length + rest.length ≤ (wire b.socket).length + b.socket.length
    omega
  · show b.socket = [] ∧ rest = [] ∨
      (wire rest).length + rest.length < (wire b.socket).length + b.socket.length
    by_cases hbs : bs = []
    · refine (hidle (by omega) hbs).imp_right fun hlt => ?_
      omega
    · have hpos := List.length_pos_iff.mpr hbs
      exact Or.inr (by omega)

theorem Block.fill_spec {b : Block} (init : Bool) (hbuf : b.eventBuf.length = bufLen)
    (hfits : b.event + b.size ≤ bufLen) (hok : Intact b.socket) (halive : b.freed = false) :
    ∃ b', b.fill init = (b', true) ∧ b.Refilled b' ∧ (b.whole = true → b' = b) ∧
      (init = true → b.whole = false → b.size < bufLen → b.socket = [] ∧ b'.socket = [] ∨
        (wire b'.socket).length + b'.socket.length <
          (wire b.socket).length + b.socket.length) := by
  by_cases h : (init && !b.whole) = true
  · obtain ⟨b', hr, hrefilled, hprogress⟩ := Block.refill_spec hbuf hfits hok halive
    refine ⟨b', by rw [Block.fill, if_pos h, hr], hrefilled, fun hw => ?_, fun _ _ => hprogress⟩
    simp [hw] at h
  · refine ⟨b, by rw [Block.fill, if_neg h],
      ⟨hbuf, hfits, hok, halive, rfl, rfl, rfl, Nat.le_refl _⟩, fun _ => rfl, fun hi hw => ?_⟩
    simp [hi, hw] at h

/-- The next record is held: where it is and what consuming it leaves, whatever the
callbacks wrote inside it. -/
theorem Block.at_record {b : Block} {r : List UInt8} {rest : List (List UInt8)}
    (hr : perfHeader.Record r) (hbuf : b.eventBuf.length = bufLen)
    (hfits : b.event + b.size ≤ bufLen)
    (hstream : b.unread ++ later = (r :: rest).flatten) (hlen : r.length ≤ b.size) :
    b.here = r ++ b.here.drop r.length ∧ headerSize b.here = r.length ∧
      ∀ m log yielded, m.length = b.here.length → m.take headerLen = b.here.take headerLen →
        m.drop r.length = b.here.drop r.length →
        Block.unread (Block.consume { b.rewrite m with log := log, yielded := yielded }) ++ later =
          rest.flatten := by
  have hr8 : headerLen < r.length := hr.1
  have hu := Block.unread_length (b := b) (by omega)
  rw [List.flatten_cons] at hstream
  obtain ⟨htake, hdrop⟩ := append_split hstream (by omega)
  have hrec : b.here.take r.length = r := by
    rw [Block.unread, List.take_take, Nat.min_eq_left hlen] at htake
    exact htake
  have hhere : b.here = r ++ b.here.drop r.length := by
    calc
      b.here = b.here.take r.length ++ b.here.drop r.length := (List.take_append_drop _ _).symm
      _ = r ++ b.here.drop r.length := by rw [hrec]
  have hn : headerSize b.here = r.length := by
    rw [hhere, headerSize_append _ _ (by omega)]
    exact hr.2
  refine ⟨hhere, hn, ?_⟩
  intro m log yielded hml hmt hmd
  have hev : b.event ≤ b.eventBuf.length := by omega
  have hh' : (b.eventBuf.take b.event ++ m).drop b.event = m := by
    rw [List.drop_append, List.length_take, Nat.min_eq_left hev]
    simp
  have hn' : headerSize m = r.length := by
    rw [← headerSize_take, hmt, headerSize_take, hn]
  have hw : Block.whole { b.rewrite m with log := log, yielded := yielded } = true := by
    simp only [Block.whole, Block.here, Block.rewrite, hh', hn', Bool.and_eq_true]
    exact ⟨decide_eq_true (Nat.lt_of_lt_of_le hr8 hlen), decide_eq_true hlen⟩
  simp only [Block.consume, hw, if_true]
  simp only [Block.unread, Block.here, Block.rewrite, hh', hn', List.drop_append,
    List.length_take, Nat.min_eq_left hev]
  rw [← hdrop]
  simp only [Nat.add_sub_cancel_left, hmd]
  simp [Block.unread, Block.here, List.drop_take]

theorem Handler.returns_iff (H : Handler) (r : List UInt8) :
    H.returns r = true ↔ headerType r ≠ perfRecordTp ∧
      (headerType r = perfRecordSample → (H.eventConvert r).1 ≠ none) := by
  simp only [Handler.returns, Bool.and_eq_true, Bool.or_eq_true, decide_eq_true_eq,
    Option.isSome_iff_ne_none]
  constructor
  · intro ⟨h1, h2⟩
    exact ⟨h1, fun hs => h2.resolve_left (fun hns => hns hs)⟩
  · intro ⟨h1, h2⟩
    refine ⟨h1, ?_⟩
    by_cases hs : headerType r = perfRecordSample
    · exact Or.inr (h2 hs)
    · exact Or.inl hs

/-- What one pass of `block_read_event` does to a sound block that holds a whole record. -/
inductive Block.Progress (H : Handler) (records : List (List UInt8)) (later : List UInt8)
    (b : Block) : Pass Block (Option (List UInt8)) → Prop where
  | again (b' : Block) (hs : b'.Sound H records later) (hlt : b'.left < b.left) :
      Progress H records later b (.again b')
  | record (b' : Block) (r : List UInt8) (hs : b'.Sound H records later) (hlt : b'.left < b.left) :
      Progress H records later b (.done b' (some r))

/-- The cursor is on the record `r`; whatever a callback leaves inside of it, the block is sound
behind it and has less left than `b₀`. -/
structure Block.OnRecord (H : Handler) (records : List (List UInt8)) (later : List UInt8)
    (b₀ b : Block) (r : List UInt8) : Prop where
  handles : H.Handles r
  whole : b.whole = true
  here : b.here = r ++ b.here.drop r.length
  record : b.here.take (headerSize b.here) = r
  type : headerType b.here = headerType r
  yielded : b.yielded = b.log.filter H.returns
  behind : ∀ m yielded, m.length = b.here.length → m.take headerLen = b.here.take headerLen →
    m.drop r.length = b.here.drop r.length → yielded = (b.log ++ [r]).filter H.returns →
    Block.Sound H records later { b.rewrite m with log := b.log ++ [r], yielded := yielded } ∧
      Block.left { b.rewrite m with log := b.log ++ [r], yielded := yielded } < b₀.left

section Take
variable {b₀ b : Block} {r : List UInt8} (h : Block.OnRecord H records later b₀ b r)
include h

theorem Block.OnRecord.kept (hret : H.returns r = false) :
    b.yielded = (b.log ++ [r]).filter H.returns := by
  simp [h.yielded, hret]

theorem Block.OnRecord.given (hret : H.returns r = true) :
    b.yielded ++ [r] = (b.log ++ [r]).filter H.returns := by
  simp [h.yielded, hret]

theorem Block.take_tp (htp : headerType r = perfRecordTp) :
    Block.Progress H records later b₀ (b.take H) := by
  have hret : H.returns r = false := by
    rw [← Bool.not_eq_true, Handler.returns_iff]
    exact fun hreturns => hreturns.1 htp
  obtain ⟨m, hm⟩ := h.handles.accepts (b.here.drop r.length)
  have hmd := h.handles.process_inside _ _ hm
  rw [← h.here] at hm
  obtain ⟨hs, hlt⟩ := h.behind m b.yielded (H.process_length _ _ hm) (H.process_header _ _ hm) hmd
    (h.kept hret)
  have hlog : ∀ l, Block.here { b with log := l } = b.here := fun _ => rfl
  have he : b.take H = .again { b.rewrite m with log := b.log ++ [r], yielded := b.yielded } := by
    simp only [Block.take, h.whole, if_true, h.record, hlog, h.type, htp, hm]
    rfl
  rw [he]
  exact .again _ hs hlt

/-- A sample is given back if the conversion finds its instance. -/
theorem Block.take_sample (hen : H.enabled = true) (htp : headerType r ≠ perfRecordTp)
    (hsm : headerType r = perfRecordSample) : Block.Progress H records later b₀ (b.take H) := by
  have hloc : (H.eventConvert b.here).1 = (H.eventConvert r).1 := by
    rw [h.here]
    exact h.handles.convert_local _
  have hcd : (H.eventConvert b.here).2.drop r.length = b.here.drop r.length := by
    have hinside := h.handles.convert_inside (b.here.drop r.length)
    rwa [← h.here] at hinside
  have hlog : ∀ l, Block.here { b with log := l } = b.here := fun _ => rfl
  cases hcv : H.eventConvert b.here with
  | mk ins m =>
    have hml : m.length = b.here.length := by
      rw [← H.convert_length b.here, hcv]
    have hmt : m.take headerLen = b.here.take headerLen := by
      rw [← H.convert_header b.here, hcv]
    rw [hcv] at hcd hloc
    cases ins with
    | none =>
      have hret : H.returns r = false := by
        rw [← Bool.not_eq_true, Handler.returns_iff]
        exact fun hreturns => hreturns.2 hsm hloc.symm
      obtain ⟨hs, hlt⟩ := h.behind m b.yielded hml hmt hcd (h.kept hret)
      have he : b.take H =
          .again { b.rewrite m with log := b.log ++ [r], yielded := b.yielded } := by
        simp only [Block.take, h.whole, if_true, h.record, hlog, h.type, hsm, hcv, hen]
        rfl
      rw [he]
      exact .again _ hs hlt
    | some i =>
      have hret : H.returns r = true := by
        rw [Handler.returns_iff]
        exact ⟨htp, fun _ => by rw [← hloc]; simp⟩
      obtain ⟨hs, hlt⟩ := h.behind m (b.yielded ++ [r]) hml hmt hcd (h.given hret)
      have he : b.take H = .done
          { b.rewrite m with log := b.log ++ [r], yielded := b.yielded ++ [r] } (some r) := by
        simp only [Block.take, h.whole, if_true, h.record, hlog, h.type, hsm, hcv, hen]
        rfl
      rw [he]
      exact .record _ r hs hlt

theorem Block.take_other (hen : H.enabled = true) (htp : headerType r ≠ perfRecordTp)
    (hsm : headerType r ≠ perfRecordSample) : Block.Progress H records later b₀ (b.take H) := by
  have hret : H.returns r = true := by
    rw [Handler.returns_iff]
    exact ⟨htp, fun hsample => absurd hsample hsm⟩
  obtain ⟨hs, hlt⟩ := h.behind b.here (b.yielded ++ [r]) rfl rfl rfl (h.given hret)
  have hlog : ∀ l, Block.here { b with log := l } = b.here := fun _ => rfl
  have hid : b.rewrite b.here = b := by
    simp [Block.rewrite, Block.here]
  have he : b.take H = .done
      { b.rewrite b.here with log := b.log ++ [r], yielded := b.yielded ++ [r] } (some r) := by
    rw [hid]
    simp only [Block.take, h.whole, if_true, h.record, hlog, h.type, htp, hsm, hen, if_false]
    rfl
  rw [he]
  exact .record _ r hs hlt

end Take

theorem Block.take_progress {b₀ b : Block} (rem : List (List UInt8))
    (hrec : ∀ r ∈ records, perfHeader.Record r) (hH : ∀ r ∈ records, H.Handles r)
    (hen : H.enabled = true) (hbuf : b.eventBuf.length = bufLen)
    (hfits : b.event + b.size ≤ bufLen) (hok : Intact b.socket) (halive : b.freed = false)
    (hahead : b₀.ahead = b.unread ++ wire b.socket)
    (hshorter : (wire b.socket).length + b.socket.length ≤
      (wire b₀.socket).length + b₀.socket.length) (hrem : records = b.log ++ rem)
    (hstream : b.unread ++ wire b.socket ++ later = rem.flatten)
    (hy : b.yielded = b.log.filter H.returns) (hw : b.whole = true) :
    Block.Progress H records later b₀ (b.take H) := by
  have hsub : ∀ r ∈ rem, r ∈ records := by
    intro r hr
    rw [hrem]
    exact List.mem_append_right _ hr
  have hwhole := Block.whole_iff (b := b) (fun r hr => hrec r (hsub r hr)) (by omega)
    (by rw [← List.append_assoc]; exact hstream)
  obtain ⟨r, rest, rfl, hlen⟩ := hwhole.mp hw
  have hr := hrec r (hsub r (by simp))
  have hr8 : headerLen < r.length := hr.1
  obtain ⟨hhere, hn, hafter⟩ := Block.at_record hr hbuf hfits
    (by rw [← List.append_assoc]; exact hstream) hlen
  have hrecord : b.here.take (headerSize b.here) = r := by
    rw [hn, hhere]
    simp
  have htype : headerType b.here = headerType r := by
    rw [hhere, headerType_append _ _ (by omega)]
  have hon : Block.OnRecord H records later b₀ b r := by
    refine ⟨hH r (hsub r (by simp)), hw, hhere, hrecord, htype, hy,
      fun m yielded hml hmt hmd hyl => ?_⟩
    have ha := hafter m (b.log ++ [r]) yielded hml hmt hmd
    refine ⟨⟨?_, hfits, hok, halive, ⟨rest, ?_, ?_⟩, hyl⟩, ?_⟩
    · simp only [Block.rewrite, List.length_append, List.length_take]
      have : b.here.length = b.eventBuf.length - b.event := by simp [Block.here]
      omega
    · rw [hrem]
      simp
    · rw [List.append_assoc]
      exact ha
    · have h1 := congrArg List.length ha
      have h2 := congrArg List.length hstream
      have hone := Bool.toNat_le
        (Block.whole { b.rewrite m with log := b.log ++ [r], yielded := yielded })
      simp only [Block.left, hahead]
      simp only [Block.ahead, List.length_append, List.flatten_cons] at h1 h2 ⊢
      simp only [Block.rewrite] at h1 hone ⊢
      omega
  by_cases htp : headerType r = perfRecordTp
  · exact Block.take_tp hon htp
  · by_cases hsm : headerType r = perfRecordSample
    · exact Block.take_sample hon hen htp hsm
    · exact Block.take_other hon hen htp hsm

/-- No whole record is held: what is held is the front of the next one. -/
theorem Block.framed_of_not_whole {b : Block} {log : List (List UInt8)}
    (hrec : ∀ r ∈ records, perfHeader.Record r) (hfits : b.event + b.size ≤ b.eventBuf.length)
    (hw : b.whole = false) (hframed : ∃ rem, records = log ++ rem ∧
      b.unread ++ wire b.socket ++ later = rem.flatten) :
    Framed records later log b.unread b.socket := by
  obtain ⟨rem, hrem, hstream⟩ := hframed
  refine ⟨rem, hrem, hstream, ?_⟩
  intro r rest he
  rw [Block.unread_length hfits]
  by_contra hlen
  have hsub : ∀ q ∈ rem, perfHeader.Record q := by
    intro q hq
    apply hrec q
    rw [hrem]
    exact List.mem_append_right _ hq
  have := (Block.whole_iff (b := b) hsub hfits
    (by rw [← List.append_assoc]; exact hstream)).mpr ⟨r, rest, he, by omega⟩
  simp [hw] at this

/-- A block that holds no whole record has room for more. -/
theorem Block.Sound.room {b : Block} (hrec : ∀ r ∈ records, perfHeader.Record r)
    (hs : b.Sound H records later) (hw : b.consume.whole = false) : b.consume.size < bufLen := by
  obtain ⟨hcb, hce, hcs, -⟩ := Block.consume_spec b
  have hbuf := hs.buf
  have hfits := hs.fits
  have hfits' : b.consume.event + b.consume.size ≤ b.consume.eventBuf.length := by
    rw [hce, hcb]
    omega
  have hframed : Framed records later b.log b.consume.unread b.consume.socket := by
    apply Block.framed_of_not_whole hrec hfits' hw
    rw [hcs]
    exact hs.framed
  rw [← Block.unread_length hfits']
  exact hframed.length_lt hrec

/-- The block from which a pass takes a record: that after a read, if there is room for one and
no whole record is held. -/
theorem Block.Sound.refilled {b : Block} (init : Bool) (hrec : ∀ r ∈ records, perfHeader.Record r)
    (hs : b.Sound H records later) :
    ∃ b', blockReadPass H init b = b'.take H ∧ b.consume.Refilled b' ∧
      (b.consume.whole = true → b' = b.consume) ∧
      (init = true → b.consume.whole = false → b'.socket = [] ∨
        (wire b'.socket).length + b'.socket.length <
          (wire b.socket).length + b.socket.length) := by
  obtain ⟨hcb, hce, hcs, -, -, hca, -⟩ := Block.consume_spec b
  obtain ⟨b', hf, hrefilled, hkeep, hprogress⟩ := Block.fill_spec (b := b.consume) init
    (by rw [hcb]; exact hs.buf) (by rw [hce]; exact hs.fits) (by rw [hcs]; exact hs.intact)
    (by rw [hca]; exact hs.alive)
  refine ⟨b', ?_, hrefilled, hkeep, fun hi hw => ?_⟩
  · simp only [blockReadPass, hf, hrefilled.alive, Bool.false_eq_true, if_false]
  · rw [← hcs]
    exact (hprogress hi hw (hs.room hrec hw)).imp_left And.right

theorem Block.Refilled.ahead {b b' : Block} (hr : b.consume.Refilled b') :
    b.ahead = b'.unread ++ wire b'.socket := by
  rw [hr.stream, (Block.consume_spec b).2.2.1]
  rfl

theorem Block.Refilled.framed {b b' : Block} (hr : b.consume.Refilled b')
    (hs : b.Sound H records later) :
    (∃ rem, records = b'.log ++ rem ∧ b'.unread ++ wire b'.socket ++ later = rem.flatten) ∧
      b'.yielded = b'.log.filter H.returns ∧
      (wire b'.socket).length + b'.socket.length ≤ (wire b.socket).length + b.socket.length := by
  obtain ⟨-, -, hcs, hcl, hcy, -⟩ := Block.consume_spec b
  obtain ⟨rem, hrem, hstream⟩ := hs.framed
  refine ⟨⟨rem, ?_, ?_⟩, ?_, ?_⟩
  · rw [hr.log, hcl]
    exact hrem
  · rw [← hr.ahead]
    exact hstream
  · rw [hr.yielded, hr.log, hcy, hcl]
    exact hs.yields
  · have := hr.shorter
    rwa [hcs] at this

/-- Whether a whole record is held is a matter of the unread bytes. -/
theorem Block.whole_of_unread {b b' : Block} (hfits : b.event + b.size ≤ b.eventBuf.length)
    (hfits' : b'.event + b'.size ≤ b'.eventBuf.length) (h : b'.unread = b.unread) :
    b'.whole = b.whole := by
  have hsize : b'.size = b.size := by
    rw [← Block.unread_length hfits', h, Block.unread_length hfits]
  have hhead : ∀ c : Block, c.event + c.size ≤ c.eventBuf.length → headerLen ≤ c.size →
      headerSize c.here = headerSize c.unread := fun c hc =>
    Walk.headerSize_unread (w := ⟨c.eventBuf, c.event, c.size, []⟩) (Block.size_le_here hc)
  by_cases hlen : headerLen < b.size
  · rw [Block.whole, Block.whole, hsize, hhead b hfits hlen.le, hhead b' hfits' (by omega), h]
  · simp [Block.whole, hsize, hlen]

/-- A sound block that holds no whole record holds the front of the next one. -/
theorem Block.Sound.framed_of_wait {b : Block} (hrec : ∀ r ∈ records, perfHeader.Record r)
    (hs : b.Sound H records later) (hw : b.whole = false) :
    Framed records later b.log b.unread b.socket := by
  have hbuf := hs.buf
  have hfits := hs.fits
  have hc : b.consume = b := by simp [Block.consume, hw]
  have hframed := hs.framed
  rw [hc] at hframed
  exact Block.framed_of_not_whole hrec (by omega) hw hframed

/-- A pass that finds no record leaves a sound block. With `init` it has read something, if there
was anything. -/
theorem Block.Sound.waits {b b' : Block} {init : Bool} (hs : b.Sound H records later)
    (hr : b.consume.Refilled b') (hw : b'.whole = false)
    (hkeep : b.consume.whole = true → b' = b.consume)
    (hprogress : init = true → b.consume.whole = false → b'.socket = [] ∨
      (wire b'.socket).length + b'.socket.length <
        (wire b.socket).length + b.socket.length) :
    b'.Sound H records later ∧ b'.left ≤ b.left ∧
      (init = true → b'.Drained ∨ b'.left < b.left) := by
  obtain ⟨hframed, hyields, hshorter⟩ := hr.framed hs
  have hc : b'.consume = b' := by simp [Block.consume, hw]
  have hahead : b'.ahead = b.ahead := by
    rw [Block.ahead, hc, hr.ahead]
  have hone := Bool.toNat_le b.whole
  refine ⟨⟨hr.buf, hr.fits, hr.intact, hr.alive, ?_, hyields⟩, ?_, fun hi => ?_⟩
  · rw [hc]
    exact hframed
  · simp only [Block.left, hahead, hw, Bool.toNat_false]
    omega
  · have hcw : b.consume.whole = false := by
      rw [← Bool.not_eq_true]
      intro h
      rw [hkeep h, h] at hw
      exact absurd hw (by simp)
    refine (hprogress hi hcw).imp (fun h => ⟨h, hw⟩) fun h => ?_
    simp only [Block.left, hahead, hw, Bool.toNat_false]
    omega

/-- Once everything has been read, a pass changes nothing that is held. -/
theorem Block.Drained.refilled {b b' : Block} (hd : b.Drained) (hs : b.Sound H records later)
    (hr : b.consume.Refilled b') : b'.Drained := by
  have hbuf := hs.buf
  have hfits := hs.fits
  have hbuf' := hr.buf
  have hfits' := hr.fits
  have hc : b.consume = b := by simp [Block.consume, hd.2]
  have hshorter := (hr.framed hs).2.2
  have hstream := hr.stream
  rw [hc, hd.1] at hstream
  rw [hd.1] at hshorter
  have hsocket : b'.socket = [] := by
    simp only [wire, List.map_nil, List.flatten_nil, List.length_nil] at hshorter
    exact List.length_eq_zero_iff.mp (by omega)
  rw [hsocket] at hstream
  refine ⟨hsocket, ?_⟩
  rw [Block.whole_of_unread (b := b) (by omega) (by omega) (List.append_cancel_right hstream)]
  exact hd.2

/-- One call of `block_read_event` returns, and leaves a sound block; a null result means
that no whole record is held. -/
theorem blockRead_frames (init : Bool) (hrec : ∀ r ∈ records, perfHeader.Record r)
    (hH : ∀ r ∈ records, H.Handles r) (hen : H.enabled = true) (b : Block)
    (hs : b.Sound H records later) :
    ∃ N b' res, (∀ n, N ≤ n → iterate (blockReadPass H init) n b = some (b', res)) ∧
      b'.Sound H records later ∧ (res = none → b'.whole = false) ∧ b'.left ≤ b.left ∧
      (init = true → b'.Drained ∨ b'.left < b.left) ∧ (b.Drained → b'.Drained) := by
  induction hm : b.left using Nat.strongRecOn generalizing b with
  | _ k ih =>
    obtain ⟨b₁, hpass, hr, hkeep, hprogress⟩ := hs.refilled init hrec
    by_cases hw : b₁.whole = true
    · -- a drained block holds no record
      have hnot : ¬ b.Drained := by
        intro hd
        have := (hd.refilled hs hr).2
        simp [hw] at this
      obtain ⟨⟨rem, hrem, hstream⟩, hyields, hshorter⟩ := hr.framed hs
      have hp : Block.Progress H records later b (b₁.take H) := Block.take_progress rem hrec hH hen
        hr.buf hr.fits hr.intact hr.alive hr.ahead hshorter hrem hstream hyields hw
      cases hb : b₁.take H with
      | done b' res =>
        rw [hb] at hp hpass
        cases hp with
        | record b' r hs' hlt =>
          exact ⟨1, b', some r, fun n hn => iterate_mono (iterate_done hpass 0) hn, hs',
            by simp, by omega, fun _ => Or.inr (by omega), fun hd => absurd hd hnot⟩
      | again b' =>
        rw [hb] at hp hpass
        cases hp with
        | again b' hs' hlt =>
          obtain ⟨N, b₂, res, hN, hs₂, hres, hle, hinit, -⟩ := ih _ (hm ▸ hlt) b' hs' rfl
          refine ⟨N+1, b₂, res, ?_, hs₂, hres, by omega,
            fun hi => (hinit hi).imp_right fun h => by omega, fun hd => absurd hd hnot⟩
          intro n hn
          obtain ⟨j, rfl⟩ : ∃ j, n = j+1 := ⟨n-1, by omega⟩
          rw [iterate_again hpass]
          exact hN j (by omega)
    · rw [Bool.not_eq_true] at hw
      have hb : blockReadPass H init b = .done b₁ none := by
        rw [hpass]
        simp [Block.take, hw]
      obtain ⟨hs₁, hle, hinit⟩ := hs.waits hr hw hkeep hprogress
      exact ⟨1, b₁, none, fun n hn => iterate_mono (iterate_done hb 0) hn, hs₁, fun _ => hw,
        hm ▸ hle, fun hi => hm ▸ hinit hi, fun hd => hd.refilled hs hr⟩

/-- The calls that `order_process` makes, each with its `init` flag, and the result of the
last one. -/
def blockReads (H : Handler) (fuel : Nat) :
    List Bool → Block × Option (List UInt8) → Option (Block × Option (List UInt8))
  | [], out => some out
  | init :: inits, (b, _) =>
    (iterate (blockReadPass H init) fuel b).bind (blockReads H fuel inits)

theorem blockReads_frame (inits : List Bool) (hrec : ∀ r ∈ records, perfHeader.Record r)
    (hH : ∀ r ∈ records, H.Handles r) (hen : H.enabled = true) (b : Block)
    (res : Option (List UInt8)) (hs : b.Sound H records later)
    (hw : res = none → b.whole = false) :
    ∃ N b' res', (∀ n, N ≤ n → blockReads H n inits (b, res) = some (b', res')) ∧
      b'.Sound H records later ∧ (res' = none → b'.whole = false) ∧
      (b.Drained ∨ b.left < inits.count true → b'.Drained) := by
  induction inits generalizing b res with
  | nil => exact ⟨0, b, res, fun _ _ => rfl, hs, hw, fun h => h.resolve_right (Nat.not_lt_zero _)⟩
  | cons init inits ih =>
    obtain ⟨N₁, b₁, res₁, h₁, hs₁, hw₁, hle, hinit, hkeep⟩ :=
      blockRead_frames init hrec hH hen b hs
    obtain ⟨N₂, b₂, res₂, h₂, hs₂, hw₂, hdrain⟩ := ih b₁ res₁ hs₁ hw₁
    refine ⟨max N₁ N₂, b₂, res₂, ?_, hs₂, hw₂, fun h => hdrain (h.elim (Or.inl ∘ hkeep) ?_)⟩
    · intro n hn
      rw [blockReads, h₁ n (by omega), Option.bind_some, h₂ n (by omega)]
    · intro hlt
      cases init with
      | true =>
        refine (hinit rfl).imp_right fun h => ?_
        rw [List.count_cons_self] at hlt
        omega
      | false =>
        rw [List.count_cons_of_ne (by simp)] at hlt
        exact Or.inr (by omega)

end BlockRead

/-- A peer that takes every record as it is. -/
def echo : Handler where
  enabled := true
  processEvent := some
  eventConvert := fun m => (some 0, m)
  process_length := by
    intro m m' h
    rw [Option.some.inj h]
  process_header := by
    intro m m' h
    rw [Option.some.inj h]
  convert_length := fun _ => rfl
  convert_header := fun _ => rfl

theorem echo_handles (r : List UInt8) : echo.Handles r where
  accepts := fun rest => ⟨_, rfl⟩
  process_inside := by
    intro rest m h
    rw [← Option.some.inj h, List.drop_left]
  convert_inside := fun _ => List.drop_left
  convert_local := fun _ => rfl

end PerfProf.EventSpread
