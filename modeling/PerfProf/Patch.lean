import Mathlib.Data.List.Induction
import PerfProf.Framing

/-! Overwriting several places of a buffer. As long as the places lie apart their order
does not matter, and what each of them holds afterwards can be read off. -/
namespace PerfProf.Framing
variable {α : Type*}

structure Patch (α : Type*) where
  off : Nat
  cells : List α
deriving DecidableEq

namespace Patch

def stop (p : Patch α) : Nat := p.off + p.cells.length

def Covers (p : Patch α) (i : Nat) : Prop := p.off ≤ i ∧ i < p.stop

def Apart (p q : Patch α) : Prop := p.stop ≤ q.off ∨ q.stop ≤ p.off

/-- The buffer holds there what the patch would write. -/
def Holds (buf : List α) (p : Patch α) : Prop := slice buf p.off p.cells.length = p.cells

end Patch

def patch (ps : List (Patch α)) (buf : List α) : List α :=
  ps.foldl (fun buf p => blit buf p.off p.cells) buf

/-- `buf'` is `buf` with the patches in it and nothing else changed. -/
structure Patched (ps : List (Patch α)) (buf buf' : List α) : Prop where
  length : buf'.length = buf.length
  holds : ∀ p ∈ ps, p.Holds buf'
  frame : ∀ i, (∀ p ∈ ps, ¬ p.Covers i) → buf'[i]? = buf[i]?

theorem patch_append (ps qs : List (Patch α)) (buf : List α) :
    patch (ps ++ qs) buf = patch qs (patch ps buf) := List.foldl_append

theorem slice_getElem? (buf : List α) (off n i : Nat) :
    (slice buf off n)[i]? = if i < n then buf[off + i]? else none := by
  rw [slice, List.getElem?_take]
  split_ifs
  · rw [List.getElem?_drop]
  · rfl

theorem blit_getElem? (buf : List α) {off : Nat} {xs : List α}
    (h : off + xs.length ≤ buf.length) (i : Nat) :
    (blit buf off xs)[i]? =
      if off ≤ i ∧ i < off + xs.length then xs[i - off]? else buf[i]? := by
  have hoff : (buf.take off).length = off := by
    rw [List.length_take]
    omega
  rw [blit, List.append_assoc, List.getElem?_append, hoff, List.getElem?_append]
  split_ifs with h1 h2 h3 h3 h4
  · omega
  · exact List.getElem?_take_of_lt h1
  · rfl
  · omega
  · omega
  · rw [List.getElem?_drop]
    congr 1
    omega

/-- A part of the buffer that lies apart from what is written stays. -/
theorem slice_blit_apart (buf : List α) {off start n : Nat} {xs : List α}
    (h : off + xs.length ≤ buf.length) (ha : start + n ≤ off ∨ off + xs.length ≤ start) :
    slice (blit buf off xs) start n = slice buf start n := by
  refine List.ext_getElem? fun i => ?_
  rw [slice_getElem?, slice_getElem?, blit_getElem? buf h]
  split_ifs with hi hin
  · omega
  · rfl
  · rfl

theorem slice_blit_self (buf : List α) {off : Nat} {xs : List α}
    (h : off + xs.length ≤ buf.length) : slice (blit buf off xs) off xs.length = xs := by
  refine List.ext_getElem? fun i => ?_
  rw [slice_getElem?, blit_getElem? buf h]
  split_ifs with hi hin
  · rw [Nat.add_sub_cancel_left]
  · omega
  · exact (List.getElem?_eq_none (by omega)).symm

section Patching
variable {ps qs : List (Patch α)} {buf buf' : List α}

theorem patched_nil (buf : List α) : Patched [] buf buf where
  length := rfl
  holds := fun p hp => by cases hp
  frame := fun i _ => rfl

/-- One more patch, apart from the others. -/
theorem Patched.snoc {p : Patch α} (h : Patched ps buf buf') (hin : p.stop ≤ buf.length)
    (ha : ∀ q ∈ ps, q.Apart p) : Patched (ps ++ [p]) buf (blit buf' p.off p.cells) := by
  have hin' : p.off + p.cells.length ≤ buf'.length := by
    rw [h.length]
    exact hin
  constructor
  · rw [blit_length _ hin', h.length]
  · intro q hq
    rw [List.mem_append, List.mem_singleton] at hq
    obtain hq | rfl := hq
    · have hhold := h.holds q hq
      rw [Patch.Holds] at hhold ⊢
      rw [slice_blit_apart _ hin' (ha q hq), hhold]
    · exact slice_blit_self _ hin'
  · intro i hi
    have hp : ¬(p.off ≤ i ∧ i < p.off + p.cells.length) :=
      hi p (List.mem_append_right _ (List.mem_singleton_self p))
    rw [blit_getElem? _ hin', if_neg hp]
    exact h.frame i fun q hq => hi q (List.mem_append_left _ hq)

theorem patched_patch (hin : ∀ p ∈ ps, p.stop ≤ buf.length) (ha : ps.Pairwise Patch.Apart) :
    Patched ps buf (patch ps buf) := by
  induction ps using List.reverseRecOn with
  | nil => exact patched_nil buf
  | append_singleton ps p ih =>
    rw [List.pairwise_append] at ha
    have hps : Patched ps buf (patch ps buf) :=
      ih (fun q hq => hin q (List.mem_append_left _ hq)) ha.1
    have hp := hin p (List.mem_append_right _ (List.mem_singleton_self p))
    have hone := hps.snoc hp fun q hq => ha.2.2 q hq p (List.mem_singleton_self p)
    rw [patch_append]
    exact hone

/-- A part of the buffer that lies apart from all the patches stays. -/
theorem Patched.slice_apart (h : Patched ps buf buf') {start n : Nat}
    (ha : ∀ p ∈ ps, start + n ≤ p.off ∨ p.stop ≤ start) :
    slice buf' start n = slice buf start n := by
  refine List.ext_getElem? fun i => ?_
  rw [slice_getElem?, slice_getElem?]
  split_ifs with hi
  · refine h.frame (start + i) fun p hp hcovers => ?_
    have hp' := ha p hp
    rw [Patch.Covers] at hcovers
    omega
  · rfl

/-- Writing only the first patches is enough exactly when the buffer holds the others already. -/
theorem patched_prefix_iff (hin : ∀ p ∈ ps, p.stop ≤ buf.length)
    (ha : (ps ++ qs).Pairwise Patch.Apart) :
    Patched (ps ++ qs) buf (patch ps buf) ↔ ∀ q ∈ qs, q.Holds buf := by
  rw [List.pairwise_append] at ha
  have hps : Patched ps buf (patch ps buf) := patched_patch hin ha.1
  have hkeep : ∀ q ∈ qs, slice (patch ps buf) q.off q.cells.length =
      slice buf q.off q.cells.length := by
    intro q hq
    exact hps.slice_apart fun p hp => (ha.2.2 p hp q hq).symm
  constructor
  · intro h q hq
    have hhold := h.holds q (List.mem_append_right _ hq)
    rwa [Patch.Holds, hkeep q hq] at hhold
  · intro h
    refine ⟨hps.length, ?_, ?_⟩
    · intro q hq
      rw [List.mem_append] at hq
      obtain hq | hq := hq
      · exact hps.holds q hq
      · rw [Patch.Holds, hkeep q hq]
        exact h q hq
    · intro i hi
      exact hps.frame i fun p hp => hi p (List.mem_append_left _ hp)

end Patching

end PerfProf.Framing
