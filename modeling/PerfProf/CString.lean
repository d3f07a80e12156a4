import Mathlib.Algebra.Order.Ring.Int
import Mathlib.Data.List.TakeWhile

/-! Strings in a buffer: each ends at the next zero, and a write matters only to the string it falls
into. -/
namespace PerfProf.CString

section Strings

def nul : Char := Char.ofNat 0

/-- The string at a place of a buffer. -/
def text (buf : List Char) (p : Nat) : List Char := (buf.drop p).takeWhile (· != nul)

/-- There is a string at a place, and its terminator is in the buffer. -/
structure StrAt (buf : List Char) (p : Nat) (s : List Char) : Prop where
  noNul : nul ∉ s
  chars : ∀ i, i < s.length → buf[p + i]? = s[i]?
  ends : buf[p + s.length]? = some nul

/-- The buffers differ from `lo` up to `hi` at most. -/
def SameOutside (lo hi : Nat) (buf buf' : List Char) : Prop :=
  ∀ i, i < lo ∨ hi ≤ i → buf'[i]? = buf[i]?

end Strings

section Frame

variable {buf buf' buf'' : List Char} {p lo hi : Nat} {s a b : List Char} {c : Char}

theorem SameOutside.refl : SameOutside lo hi buf buf := fun _ _ => rfl

theorem SameOutside.trans (h : SameOutside lo hi buf buf') (h' : SameOutside lo hi buf' buf'') :
    SameOutside lo hi buf buf'' := fun i hi => (h' i hi).trans (h i hi)

theorem SameOutside.mono {lo' hi' : Nat} (h : SameOutside lo hi buf buf') (hlo : lo' ≤ lo) (hhi : hi ≤ hi') :
    SameOutside lo' hi' buf buf' := by
  intro i hi
  exact h i (by omega)

theorem sameOutside_set {i : Nat} (hlo : lo ≤ i) (hhi : i < hi) : SameOutside lo hi buf (buf.set i c) := by
  intro j hj
  rw [List.getElem?_set_ne (by omega)]

theorem StrAt.text (h : StrAt buf p s) : text buf p = s := by
  have hsplit : buf.drop p = s ++ nul :: buf.drop (p + s.length + 1) := by
    apply List.ext_getElem?
    intro i
    rw [List.getElem?_drop, List.getElem?_append]
    by_cases hi : i < s.length
    · rw [if_pos hi, h.chars i hi]
    · rw [if_neg hi]
      by_cases hend : i = s.length
      · subst hend
        simpa using h.ends
      · obtain ⟨k, rfl⟩ : ∃ k, i = s.length + 1 + k := ⟨i - (s.length + 1), by omega⟩
        have hk : s.length + 1 + k - s.length = k + 1 := by omega
        rw [hk, List.getElem?_cons_succ, List.getElem?_drop]
        congr 1
        omega
  have hall : ∀ x ∈ s, (x != nul) = true := by
    intro x hx
    simp only [bne_iff_ne]
    rintro rfl
    exact h.noNul hx
  rw [CString.text, hsplit, List.takeWhile_append_of_pos hall]
  simp

theorem StrAt.frame (h : StrAt buf p s) (hsame : SameOutside lo hi buf buf')
    (hout : p + s.length < lo ∨ hi ≤ p) : StrAt buf' p s where
  noNul := h.noNul
  chars i hi := by rw [hsame (p + i) (by omega), h.chars i hi]
  ends := by rw [hsame (p + s.length) (by omega), h.ends]

/-- The end of a string is a string. -/
theorem StrAt.drop (h : StrAt buf p (a ++ b)) : StrAt buf (p + a.length) b where
  noNul hb := h.noNul (List.mem_append_right a hb)
  chars i hi := by
    have := h.chars (a.length + i) (by simp; omega)
    rw [List.getElem?_append_right (by omega)] at this
    simpa [Nat.add_assoc] using this
  ends := by simpa [Nat.add_assoc] using h.ends

/-- A zero cuts a string in two. -/
theorem StrAt.cut_left (h : StrAt buf p (a ++ c :: b)) : StrAt (buf.set (p + a.length) nul) p a where
  noNul ha := h.noNul (List.mem_append_left _ ha)
  chars i hi := by
    have := h.chars i (by simp; omega)
    rw [List.getElem?_append_left hi] at this
    rw [List.getElem?_set_ne (by omega), this]
  ends := by
    have := h.chars a.length (by simp)
    rw [List.getElem?_append_right (Nat.le_refl _)] at this
    have hlt : p + a.length < buf.length := by
      by_contra hge
      rw [List.getElem?_eq_none (by omega)] at this
      simp at this
    rw [List.getElem?_set_self hlt]

theorem StrAt.cut_right (h : StrAt buf p (a ++ c :: b)) :
    StrAt (buf.set (p + a.length) nul) (p + a.length + 1) b := by
  have h' : StrAt buf p ((a ++ [c]) ++ b) := by simpa using h
  have hdrop := h'.drop
  rw [List.length_append, List.length_singleton, ← Nat.add_assoc] at hdrop
  exact hdrop.frame (sameOutside_set (Nat.le_refl _) (Nat.lt_succ_self _)) (by omega)

theorem StrAt.cons (h : StrAt buf (p + 1) s) (hc : buf[p]? = some c) (hne : c ≠ nul) :
    StrAt buf p (c :: s) where
  noNul := by
    rw [List.mem_cons, not_or]
    exact ⟨Ne.symm hne, h.noNul⟩
  chars i hi := by
    cases i with
    | zero => exact hc
    | succ i =>
      rw [List.getElem?_cons_succ, ← h.chars i (by simpa using hi)]
      congr 1
      omega
  ends := by
    rw [← h.ends, List.length_cons]
    congr 1
    omega

/-- Before a zero there is a string everywhere. -/
theorem exists_strAt (d : Nat) (h : buf[p + d]? = some nul) : ∃ s, StrAt buf p s ∧ s.length ≤ d := by
  induction d generalizing p with
  | zero => exact ⟨[], ⟨List.not_mem_nil, nofun, h⟩, Nat.le_refl _⟩
  | succ d ih =>
    have hlt : p < buf.length := by
      by_contra hge
      rw [List.getElem?_eq_none (by omega)] at h
      cases h
    by_cases hc : buf[p]? = some nul
    · exact ⟨[], ⟨List.not_mem_nil, nofun, hc⟩, Nat.zero_le _⟩
    · have hplace : p + 1 + d = p + (d + 1) := by omega
      obtain ⟨s, hs, hlen⟩ := ih (hplace ▸ h)
      have hne : buf[p] ≠ nul := by
        intro heq
        exact hc (by rw [List.getElem?_eq_getElem hlt, heq])
      exact ⟨buf[p] :: s, hs.cons (List.getElem?_eq_getElem hlt) hne, Nat.succ_le_succ hlen⟩

/-- What starts and ends before the writes stays, whatever it is. -/
theorem text_frame {k : Nat} (hk : buf[k]? = some nul) (hp : p ≤ k) (hsame : SameOutside lo hi buf buf')
    (hlo : k < lo) : text buf' p = text buf p := by
  obtain ⟨s, hs, hlen⟩ := exists_strAt (k - p) (by rwa [Nat.add_sub_cancel' hp])
  rw [hs.text, (hs.frame hsame (.inl (by omega))).text]

end Frame

end PerfProf.CString
