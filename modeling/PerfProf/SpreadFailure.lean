import PerfProf.SpreadRobust

/-! A read of `block_read_event` that fails. The unread bytes have been moved to the start of the
buffer by then, `event` still points to where they were. -/
namespace PerfProf.EventSpread
open PerfProf.Loop PerfProf.Framing

section Move

/-- The bytes look the same `off` further on, as far as there are any. -/
def Periodic (off : Nat) (bytes : List UInt8) : Prop :=
  ∀ i, off + i < bytes.length → bytes[off + i]? = bytes[i]?

/-- Moving `n` bytes to the front writes over them where the two places overlap. -/
theorem slice_moved (buf : List UInt8) {off n : Nat} (h : off + n ≤ buf.length) :
    slice (blit buf 0 (slice buf off n)) off n = slice buf off n ↔
      Periodic off (slice buf off n) := by
  have hlen : (slice buf off n).length = n := slice_length buf h
  have hold : ∀ i, i < n → (slice buf off n)[i]? = buf[off + i]? := by
    intro i hi
    rw [slice, List.getElem?_take_of_lt hi, List.getElem?_drop]
  have hblit : ∀ j, (blit buf 0 (slice buf off n))[j]? =
      if j < n then buf[off + j]? else buf[j]? := by
    intro j
    rw [blit, List.take_zero, List.nil_append, hlen, Nat.zero_add, List.getElem?_append, hlen]
    split_ifs with hj
    · exact hold j hj
    · rw [List.getElem?_drop]
      congr 1
      omega
  have hnew : ∀ i, i < n → (slice (blit buf 0 (slice buf off n)) off n)[i]? =
      if off + i < n then buf[off + (off + i)]? else buf[off + i]? := by
    intro i hi
    rw [slice, List.getElem?_take_of_lt hi, List.getElem?_drop, hblit]
  constructor
  · intro heq i hi
    rw [hlen] at hi
    have hin : i < n := by omega
    have hsame := hnew i hin
    rw [heq, if_pos hi] at hsame
    rw [hold (off + i) hi, hsame]
  · intro hperiodic
    refine List.ext_getElem? fun i => ?_
    by_cases hi : i < n
    · rw [hnew i hi, hold i hi]
      split_ifs with hover
      · have hsame := hperiodic i (by rw [hlen]; exact hover)
        rw [hold _ hover, hold i hi] at hsame
        exact hsame
      · rfl
    · have hlen' : (slice (blit buf 0 (slice buf off n)) off n).length ≤ n := List.length_take_le ..
      rw [List.getElem?_eq_none (by omega), List.getElem?_eq_none (by omega)]

end Move

section Failure
variable {H : Handler} {init : Bool} {b b₁ b' : Block}

/-- The call on `b` comes to `b₁`, and there `read_init` returns a negative value. -/
def FailsAt (H : Handler) (init : Bool) (b b₁ b' : Block) : Prop :=
  Visits (blockReadPass H init) b b₁ ∧ b₁.consume.fill init = (b', false)

/-- The call ends there. -/
theorem FailsAt.returns (h : FailsAt H init b b₁ b') :
    ∃ n, iterate (blockReadPass H init) n b = some (b', none) := by
  obtain ⟨hvisits, hfill⟩ := h
  have hdone : blockReadPass H init b₁ = .done b' none := by
    rw [blockReadPass, hfill]
  exact hvisits.iterate (n := 1) (iterate_done hdone 0)

theorem refill_failed {b : Block} (h : b.refill = (b', false)) :
    b'.event = b.event ∧ b'.size = b.size ∧
      b'.eventBuf = if b.size ≠ 0 ∧ b.event ≠ 0 then
        blit b.eventBuf 0 (slice b.eventBuf b.event b.size) else b.eventBuf := by
  unfold Block.refill at h
  dsimp only at h
  split at h
  · cases h
    exact ⟨rfl, rfl, rfl⟩
  all_goals cases h

theorem fill_failed {b : Block} (h : b.fill init = (b', false)) : b.refill = (b', false) := by
  unfold Block.fill at h
  split at h
  · exact h
  · cases h

theorem unread_refill_failed {b : Block} (hin : b.Inside) (h : b.refill = (b', false)) :
    b'.unread = b.unread ↔ Periodic b.event b.unread := by
  obtain ⟨hevent, hsize, hbuf⟩ := refill_failed h
  have hfits : b.event + b.size ≤ b.eventBuf.length := by
    rw [hin.1]
    exact hin.2
  have hunread : b'.unread = slice b'.eventBuf b.event b.size := by
    rw [Block.unread, Block.here, hevent, hsize, slice]
  rw [hunread, hbuf]
  split_ifs with hmove
  · exact slice_moved b.eventBuf hfits
  · refine iff_of_true rfl fun i hi => ?_
    rw [Block.unread_length hfits] at hi
    have hzero : b.event = 0 := by
      by_contra hne
      exact hmove ⟨by omega, hne⟩
    rw [hzero, Nat.zero_add]

/-- After a failed read the unread bytes are those from before it if and only if they are periodic
in the distance they have been moved by. -/
theorem failed_read_intact_iff (H : Handler) (init : Bool) (b b₁ b' : Block) (hin : b.Inside)
    (hfails : FailsAt H init b b₁ b') :
    (∃ n, iterate (blockReadPass H init) n b = some (b', none)) ∧
      (b'.unread = b₁.consume.unread ↔ Periodic b₁.consume.event b₁.consume.unread) := by
  have hin₁ := Block.consume_inside (block_inside hin hfails.1)
  exact ⟨hfails.returns, unread_refill_failed hin₁ (fill_failed hfails.2)⟩

/-- A record of 16 bytes that has been returned, and 20 of the 24 bytes of the next one. -/
def cutBlock : Block where
  eventBuf := [9, 0, 0, 0, 0, 0, 16, 0, 5, 5, 5, 5, 5, 5, 5, 5,
    9, 0, 0, 0, 0, 0, 24, 0, 7, 7, 7, 7, 7, 7, 7, 7, 7, 7, 7, 7] ++ List.replicate (bufLen - 36) 0
  event := 0
  size := 36
  socket := [.error]
  log := []
  yielded := []
  type := .tcp
  freed := false

theorem cutBlock_inside : cutBlock.Inside := by
  refine ⟨?_, by decide⟩
  rw [cutBlock, List.length_append, List.length_replicate]
  rfl

theorem cutBlock_fails : FailsAt echo true cutBlock cutBlock (cutBlock.consume.fill true).1 :=
  ⟨.here, rfl⟩

theorem failed_read_intact_iff_cut :
    (∃ n, iterate (blockReadPass echo true) n cutBlock =
      some ((cutBlock.consume.fill true).1, none)) ∧
      ((cutBlock.consume.fill true).1.unread = cutBlock.consume.unread ↔
        Periodic cutBlock.consume.event cutBlock.consume.unread) :=
  failed_read_intact_iff echo true cutBlock cutBlock _ cutBlock_inside cutBlock_fails

/-- The first four of the unread bytes, the type of the next record, are those of its data. -/
theorem failed_read_damages_header :
    FailsAt echo true cutBlock cutBlock (cutBlock.consume.fill true).1 ∧
      headerType cutBlock.consume.unread = 9 ∧
      headerType (cutBlock.consume.fill true).1.unread = 0x07070707 :=
  ⟨cutBlock_fails, rfl, rfl⟩

end Failure

end PerfProf.EventSpread
