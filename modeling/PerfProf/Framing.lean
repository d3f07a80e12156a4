import Mathlib.Algebra.Order.Ring.Int
import Mathlib.Data.List.Basic
import Mathlib.Data.List.Flatten

/-! Length-prefixed records in a stream: a format says how long the header is and
reads the size of the record from it. Also the two operations on a fixed buffer
that incremental receivers use. -/
namespace PerfProf.Framing
variable {α : Type*}

structure Format (α : Type*) where
  header : Nat
  size : List α → Nat
  header_pos : 0 < header
  size_append : ∀ xs ys, header ≤ xs.length → size (xs ++ ys) = size xs

/-- A record that carries its own length and more than a bare header. -/
def Format.Record (F : Format α) (r : List α) : Prop :=
  F.header < r.length ∧ F.size r = r.length

theorem Format.size_eq_head (F : Format α) {r u rest later : List α} (hr : F.Record r)
    (hu : F.header ≤ u.length) (h : u ++ later = r ++ rest) : F.size u = r.length := by
  rw [← F.size_append u later hu, h, F.size_append r rest (Nat.le_of_lt hr.1), hr.2]

/-- A receiver that holds `u` while `later` is still on the wire sees a whole record
exactly when the next record of the stream lies inside `u`. The bound `k` is the
number of bytes it insists on before it looks at the header. -/
theorem Format.whole_iff (F : Format α) {rs : List (List α)} {u later : List α} {k : Nat}
    (hrs : ∀ r ∈ rs, F.Record r) (hstream : u ++ later = rs.flatten)
    (hlo : F.header ≤ k) (hhi : k ≤ F.header + 1) :
    (k ≤ u.length ∧ F.size u ≤ u.length) ↔
      ∃ r rest, rs = r :: rest ∧ r.length ≤ u.length := by
  cases rs with
  | nil =>
    have hu : u = [] := (List.append_eq_nil_iff.mp (by simpa using hstream)).1
    have hpos := F.header_pos
    constructor
    · rintro ⟨hk, _⟩
      simp only [hu, List.length_nil] at hk
      omega
    · rintro ⟨r, rest, h, _⟩
      simp at h
  | cons r rest =>
    have hr : F.Record r := hrs r (by simp)
    rw [List.flatten_cons] at hstream
    constructor
    · rintro ⟨hk, hs⟩
      refine ⟨r, rest, rfl, ?_⟩
      rwa [F.size_eq_head hr (by omega) hstream] at hs
    · rintro ⟨r', rest', h, hlen⟩
      obtain ⟨rfl, rfl⟩ : r = r' ∧ rest = rest' := by simpa using h
      have h1 := hr.1
      exact ⟨by omega, by rwa [F.size_eq_head hr (by omega) hstream]⟩

theorem append_split {u later r rest : List α} (h : u ++ later = r ++ rest)
    (hlen : r.length ≤ u.length) : u.take r.length = r ∧ u.drop r.length ++ later = rest := by
  have ht := congrArg (List.take r.length) h
  have hd := congrArg (List.drop r.length) h
  rw [List.take_append_of_le_length hlen, List.take_left] at ht
  rw [List.drop_append_of_le_length hlen, List.drop_left] at hd
  exact ⟨ht, hd⟩

section Buffer

/-- `n` cells of `buf` from `off` on. -/
def slice (buf : List α) (off n : Nat) : List α := (buf.drop off).take n

/-- Overwrite the cells of `buf` from `off` on with `xs`. -/
def blit (buf : List α) (off : Nat) (xs : List α) : List α :=
  buf.take off ++ xs ++ buf.drop (off + xs.length)

theorem slice_length (buf : List α) {off n : Nat} (h : off + n ≤ buf.length) :
    (slice buf off n).length = n := by
  simp only [slice, List.length_take, List.length_drop]
  omega

theorem blit_length (buf : List α) {off : Nat} {xs : List α} (h : off + xs.length ≤ buf.length) :
    (blit buf off xs).length = buf.length := by
  simp only [blit, List.length_append, List.length_take, List.length_drop]
  omega

/-- Appending at the end of the first `off` cells. -/
theorem slice_blit_append (buf : List α) {off : Nat} {xs : List α} (h : off ≤ buf.length) :
    slice (blit buf off xs) 0 (off + xs.length) = slice buf 0 off ++ xs := by
  have hl : (buf.take off ++ xs).length = off + xs.length := by
    simp only [List.length_append, List.length_take]
    omega
  simp only [slice, blit, List.drop_zero]
  rw [← hl, List.take_left]

theorem slice_blit_zero (buf : List α) (xs : List α) :
    slice (blit buf 0 xs) 0 xs.length = xs := by
  have h : slice (blit buf 0 xs) 0 (0 + xs.length) = slice buf 0 0 ++ xs :=
    slice_blit_append buf (Nat.zero_le _)
  simpa [slice] using h

end Buffer

end PerfProf.Framing
