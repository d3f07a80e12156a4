import Mathlib.Data.Nat.Digits.Defs
import PerfProf.ExprCompile

/-! What the constants of a text are worth. -/
namespace PerfProf.Expr

section Constants

/-- What a digit is worth. -/
def digitVal (c : Char) : Nat :=
  if isDigit c then c.toNat - '0'.toNat
  else if 'a' ≤ c then c.toNat - 'a'.toNat + 10
  else c.toNat - 'A'.toNat + 10

/-- The number that the digits stand for, the first one the highest. -/
def numeral (base : Nat) (ds : List Char) : Nat := Nat.ofDigits base (ds.reverse.map digitVal)

theorem numeral_cons (base : Nat) (d : Char) (ds : List Char) :
    numeral base (d :: ds) = numeral base ds + base ^ ds.length * digitVal d := by
  rw [numeral, List.reverse_cons, List.map_append, List.map_singleton, Nat.ofDigits_append,
    Nat.ofDigits_singleton, List.length_map, List.length_reverse]
  rfl

theorem toNat_le {c d : Char} (h : c ≤ d) : c.toNat ≤ d.toNat := h

theorem isDigit_eq_false {c : Char} (h : 57 < c.toNat) : isDigit c = false := by
  rw [isDigit, Bool.and_eq_false_iff]
  refine .inr (decide_eq_false fun hle => ?_)
  have hle' : c.toNat ≤ 57 := toNat_le hle
  omega

/-- The low half of a character of a digit is its value, for a letter less 9. -/
theorem digit_word {c : Char} (h : isHex c = true) :
    (if 'A' ≤ c then word (c.toNat % 16 + 9) else word (c.toNat % 16)) = word (digitVal c) := by
  simp only [isHex, isDigit, Bool.or_eq_true, Bool.and_eq_true, decide_eq_true_eq] at h
  obtain (⟨h1, h2⟩ | ⟨h1, h2⟩) | ⟨h1, h2⟩ := h
  · have hlow : 48 ≤ c.toNat := toNat_le h1
    have hhigh : c.toNat ≤ 57 := toNat_le h2
    have hA : ¬ 'A' ≤ c := fun hle => by
      have hge : 65 ≤ c.toNat := toNat_le hle
      omega
    have hval : digitVal c = c.toNat - 48 := if_pos (by simp [isDigit, h1, h2])
    rw [if_neg hA, hval, show c.toNat % 16 = c.toNat - 48 by omega]
  · have hlow : 97 ≤ c.toNat := toNat_le h1
    have hhigh : c.toNat ≤ 102 := toNat_le h2
    have hA : 'A' ≤ c := Char.le_trans (by decide) h1
    have hdigit : isDigit c = false := isDigit_eq_false (by omega)
    have hval : digitVal c = c.toNat - 97 + 10 := by
      rw [digitVal, hdigit, if_neg Bool.false_ne_true, if_pos h1]
      rfl
    rw [if_pos hA, hval, show c.toNat % 16 + 9 = c.toNat - 97 + 10 by omega]
  · have hlow : 65 ≤ c.toNat := toNat_le h1
    have hhigh : c.toNat ≤ 70 := toNat_le h2
    have hdigit : isDigit c = false := isDigit_eq_false (by omega)
    have ha : ¬ 'a' ≤ c := fun hle => by
      have hge : 97 ≤ c.toNat := toNat_le hle
      omega
    have hval : digitVal c = c.toNat - 65 + 10 := by
      rw [digitVal, hdigit, if_neg Bool.false_ne_true, if_neg ha]
      rfl
    rw [if_pos h1, hval, show c.toNat % 16 + 9 = c.toNat - 65 + 10 by omega]

/-- The loop over the digits computes the number they stand for, up to the width of a `long`. -/
theorem digits_eq (base : Nat) (ds : List Char) (h : ∀ d ∈ ds, isHex d = true) (n : Nat) :
    digits base (word n) ds = word (numeral base ds + base ^ ds.length * n) := by
  induction ds generalizing n with
  | nil =>
    rw [List.length_nil, pow_zero, Nat.one_mul]
    exact congrArg word (Nat.zero_add n).symm
  | cons d ds ih =>
    rw [List.forall_mem_cons] at h
    have hstep : digits base (word n) (d :: ds) = digits base (word (n * base + digitVal d)) ds := by
      rw [digits, List.foldl_cons, digit_word h.1, word, word, word, ← BitVec.ofNat_mul,
        ← BitVec.ofNat_add]
      rfl
    rw [hstep, ih h.2, numeral_cons, List.length_cons, pow_succ, Nat.mul_add, Nat.mul_comm n base,
      ← Nat.mul_assoc, Nat.add_comm (_ * n), ← Nat.add_assoc]

theorem isHex_of_isDigit {c : Char} (h : isDigit c = true) : isHex c = true := by
  rw [isHex, h, Bool.true_or, Bool.true_or]

/-- The characters up to the first that is none of the digits. -/
theorem split_digits {isDig : Char → Bool} {ds rest : List Char} (hds : ∀ d ∈ ds, isDig d = true)
    (hrest : ∀ d, rest.head? = some d → isDig d = false) :
    (ds ++ rest).takeWhile isDig = ds ∧ (ds ++ rest).dropWhile isDig = rest := by
  rw [List.takeWhile_append_of_pos hds, List.dropWhile_append_of_pos hds]
  cases rest with
  | nil => exact ⟨List.append_nil ds, rfl⟩
  | cons c rest =>
    have hc := hrest c rfl
    rw [List.takeWhile_cons_of_neg (ne_true_of_eq_false hc),
      List.dropWhile_cons_of_neg (ne_true_of_eq_false hc)]
    exact ⟨List.append_nil ds, rfl⟩

variable {c : Char} {ds rest : List Char}

/-- A decimal constant, up to the first character that is no digit. -/
theorem number_decimal (hc : isDigit c = true) (hzero : c ≠ '0') (hds : ∀ d ∈ ds, isDigit d = true)
    (hrest : ∀ d, rest.head? = some d → isDigit d = false) (ival : Long) (n : Nat) :
    number c ⟨ds ++ rest, ival, n⟩ =
      (.num (word (numeral 10 (c :: ds))), ⟨rest, word (numeral 10 (c :: ds)), n⟩) := by
  obtain ⟨htake, hdrop⟩ := split_digits hds hrest
  have hall : ∀ d ∈ c :: ds, isHex d = true :=
    List.forall_mem_cons.mpr ⟨isHex_of_isDigit hc, fun d hd => isHex_of_isDigit (hds d hd)⟩
  have hfirst : word (c.toNat % 16) = word (digitVal c) := by
    rw [← digit_word (isHex_of_isDigit hc), if_neg]
    intro hle
    rw [isDigit, Bool.and_eq_true, decide_eq_true_eq, decide_eq_true_eq] at hc
    have hge : 65 ≤ c.toNat := toNat_le hle
    have hle' : c.toNat ≤ 57 := toNat_le hc.2
    omega
  have hval : digits 10 (word (c.toNat % 16)) ds = word (numeral 10 (c :: ds)) := by
    rw [hfirst, digits_eq 10 ds (fun d hd => hall d (List.mem_cons_of_mem c hd)), numeral_cons]
  rw [number, if_pos hzero]
  dsimp only
  rw [htake, hdrop, hval]

/-- An octal constant, or 0. -/
theorem number_octal (hds : ∀ d ∈ ds, ('0' ≤ d && d ≤ '7') = true)
    (hrest : ∀ d, rest.head? = some d → ('0' ≤ d && d ≤ '7') = false)
    (hx : ds = [] → rest.head? ≠ some 'x' ∧ rest.head? ≠ some 'X') (ival : Long) (n : Nat) :
    number '0' ⟨ds ++ rest, ival, n⟩ =
      (.num (word (numeral 8 ds)), ⟨rest, word (numeral 8 ds), n⟩) := by
  obtain ⟨htake, hdrop⟩ := split_digits hds hrest
  have hall : ∀ d ∈ ds, isHex d = true := by
    intro d hd
    have hoctal := hds d hd
    rw [Bool.and_eq_true, decide_eq_true_eq, decide_eq_true_eq] at hoctal
    refine isHex_of_isDigit ?_
    rw [isDigit, decide_eq_true hoctal.1, decide_eq_true (Char.le_trans hoctal.2 (by decide))]
    rfl
  have hval : digits 8 0 ds = word (numeral 8 ds) := digits_eq 8 ds hall 0
  have hnot : ¬((ds ++ rest).head? = some 'x' ∨ (ds ++ rest).head? = some 'X') := by
    cases ds with
    | nil => exact not_or.mpr (hx rfl)
    | cons d ds =>
      have hoctal := hds d List.mem_cons_self
      rintro (h | h)
      · cases h
        exact absurd hoctal (by decide)
      · cases h
        exact absurd hoctal (by decide)
  rw [number, if_neg (not_not.mpr rfl), if_neg hnot]
  dsimp only
  rw [htake, hdrop, hval]

/-- A hexadecimal constant. -/
theorem number_hex {x : Char} (hx : x = 'x' ∨ x = 'X') (hds : ∀ d ∈ ds, isHex d = true)
    (hrest : ∀ d, rest.head? = some d → isHex d = false) (ival : Long) (n : Nat) :
    number '0' ⟨x :: (ds ++ rest), ival, n⟩ =
      (.num (word (numeral 16 ds)), ⟨rest, word (numeral 16 ds), n⟩) := by
  obtain ⟨htake, hdrop⟩ := split_digits hds hrest
  have hval : digits 16 0 ds = word (numeral 16 ds) := digits_eq 16 ds hds 0
  have hhead : (x :: (ds ++ rest)).head? = some 'x' ∨ (x :: (ds ++ rest)).head? = some 'X' :=
    hx.imp (congrArg some) (congrArg some)
  rw [number, if_neg (not_not.mpr rfl), if_pos hhead]
  dsimp only
  rw [List.tail_cons, htake, hdrop, hval]

/-- A `char` below 128 is its code. -/
theorem charLong_ascii (hc : c.toNat < 128) : charLong c = word c.toNat := by
  have hmsb : (BitVec.ofNat 8 c.toNat).msb = false := by
    rw [BitVec.msb_eq_false_iff_two_mul_lt, BitVec.toNat_ofNat]
    omega
  rw [charLong, BitVec.signExtend_eq_setWidth_of_msb_false hmsb]
  refine BitVec.eq_of_toNat_eq ?_
  rw [BitVec.toNat_setWidth, BitVec.toNat_ofNat, word, BitVec.toNat_ofNat]
  omega

/-- A character constant: the character itself, or after a backslash a newline for `n` and the
character for any other. -/
theorem quoted_char {q : Char} (hquote : c ≠ q) (hesc : c ≠ '\x5c') (ival : Long) (n : Nat) :
    quoted q ival n (c :: q :: rest) = (charLong c, n + 1, rest) := by
  rw [quoted.eq_def]
  dsimp only
  rw [if_neg hquote, if_neg hesc, quoted.eq_def]
  exact if_pos rfl

theorem quoted_escape {q : Char} (hq : q ≠ '\x5c') (ival : Long) (n : Nat) :
    quoted q ival n ('\x5c' :: c :: q :: rest) =
      (if c = 'n' then 10 else charLong c, n + 1, rest) := by
  rw [quoted.eq_def]
  dsimp only
  rw [if_neg hq.symm, if_pos rfl, quoted.eq_def]
  exact if_pos rfl

/-- `next` at the first digit of a number. -/
theorem next_number (hc : isDigit c = true) (tab : Symtab) (strBase : Long) (fuel : Nat)
    (p : List Char) (ival : Long) (n : Nat) :
    next tab strBase (fuel + 1) ⟨c :: p, ival, n⟩ = number c ⟨p, ival, n⟩ := by
  have hbounds : 48 ≤ c.toNat ∧ c.toNat ≤ 57 := by
    rw [isDigit, Bool.and_eq_true, decide_eq_true_eq, decide_eq_true_eq] at hc
    exact ⟨toNat_le hc.1, toNat_le hc.2⟩
  have hhash : c ≠ '#' := by
    rintro rfl
    exact absurd hc (by decide)
  have halpha : isAlpha c = false := by
    rw [Bool.eq_false_iff]
    intro h
    simp only [isAlpha, Bool.or_eq_true, Bool.and_eq_true, decide_eq_true_eq, beq_iff_eq] at h
    obtain (⟨h, -⟩ | ⟨h, -⟩) | rfl := h
    · have hge : 97 ≤ c.toNat := toNat_le h
      omega
    · have hge : 65 ≤ c.toNat := toNat_le h
      omega
    · exact absurd hc (by decide)
  rw [next]
  dsimp only
  rw [if_neg hhash, halpha, if_neg Bool.false_ne_true, if_pos hc]

/-- `next` at a character constant. -/
theorem next_char (hquote : c ≠ '\x27') (hesc : c ≠ '\x5c') (tab : Symtab) (strBase : Long)
    (fuel : Nat) (ival : Long) (n : Nat) :
    next tab strBase (fuel + 1) ⟨'\x27' :: c :: '\x27' :: rest, ival, n⟩ =
      (.num (charLong c), ⟨rest, charLong c, n + 1⟩) := by
  have hread : quoted '\x27' ival 0 (c :: '\x27' :: rest) = (charLong c, 1, rest) :=
    quoted_char hquote hesc ival 0
  rw [next]
  dsimp only
  rw [if_neg (by decide), if_neg (by decide), if_neg (by decide), if_neg (by decide), if_pos rfl,
    hread]

end Constants

end PerfProf.Expr
