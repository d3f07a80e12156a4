import PerfProf.ExprExec

/-! What a run of `expr_run` reads of the buffer: a run is the same with any other buffer that has
the same bytes there. -/
namespace PerfProf.Expr
open Loop

section Reads

variable (lib : Library) (insn : List Long)

/-- The next instruction reads the byte `i` of the buffer; a library function may read any. -/
def Looks (m : Vm) (i : Nat) : Prop :=
  match insn[m.pc]?.bind Op.ofWord with
  | some .li => ∃ n off, insn[m.pc + 1]? = some n ∧ m.data.offset n.toNat m.a = some off ∧
      off ≤ i ∧ i < off + n.toNat
  | some .ksym | some .prtf | some .strncmp => i < m.data.bytes.length
  | _ => False

/-- A run with these data comes to read the byte `i`. -/
def RunReads (data : Data) (i : Nat) : Prop :=
  ∃ m, Visits (step lib insn) ⟨1, 0, [], data⟩ m ∧ Looks insn m i

/-- The next instruction reads below `bound` only. -/
def looksBelow (bound : Nat) (m : Vm) : Bool :=
  match insn[m.pc]?.bind Op.ofWord with
  | some .li => match insn[m.pc + 1]? with
    | none => true
    | some n => match m.data.offset n.toNat m.a with
      | none => true
      | some off => off + n.toNat ≤ bound
  | some .ksym | some .prtf | some .strncmp => m.data.bytes.length ≤ bound
  | _ => true

/-- A run that ends within `fuel` instructions and reads below `bound` only. -/
def runBelow (bound : Nat) : Nat → Vm → Bool
  | 0, _ => false
  | fuel + 1, m => looksBelow insn bound m && match step lib insn m with
    | .again m' => runBelow bound fuel m'
    | .done _ _ => true

end Reads

section Below

variable {lib : Library} {insn : List Long} {bound : Nat}

theorem looksBelow_lt {m : Vm} {i : Nat} (h : looksBelow insn bound m = true) (hi : Looks insn m i) :
    i < bound := by
  unfold looksBelow at h
  unfold Looks at hi
  cases hop : insn[m.pc]?.bind Op.ofWord with
  | none =>
    rw [hop] at hi
    exact hi.elim
  | some op =>
    rw [hop] at h hi
    cases op
    case li =>
      obtain ⟨n, off, hn, hoff, -, hlt⟩ := hi
      simp only [hn, hoff, decide_eq_true_eq] at h
      omega
    case ksym | prtf | strncmp =>
      exact Nat.lt_of_lt_of_le hi (of_decide_eq_true h)
    all_goals exact hi.elim

theorem runBelow_visits {fuel : Nat} {m m' : Vm} (h : runBelow lib insn bound fuel m = true)
    (hv : Visits (step lib insn) m m') : ∃ k, runBelow lib insn bound k m' = true := by
  induction hv with
  | here => exact ⟨fuel, h⟩
  | next _ hb ih =>
    obtain ⟨k, hk⟩ := ih
    cases k with
    | zero => cases hk
    | succ k =>
      rw [runBelow, hb, Bool.and_eq_true] at hk
      exact ⟨k, hk.2⟩

theorem runReads_lt {fuel : Nat} {data : Data} {i : Nat}
    (h : runBelow lib insn bound fuel ⟨1, 0, [], data⟩ = true) (hi : RunReads lib insn data i) :
    i < bound := by
  obtain ⟨m, hv, hlooks⟩ := hi
  obtain ⟨k, hk⟩ := runBelow_visits h hv
  cases k with
  | zero => cases hk
  | succ k =>
    rw [runBelow, Bool.and_eq_true] at hk
    exact looksBelow_lt hk.1 hlooks

end Below

section Alike

variable {lib : Library} {insn : List Long} {A : Nat → Prop} {d d' : Data} {m : Vm}

/-- Two buffers of one size at one address with the same bytes in `A`. -/
structure Data.Alike (A : Nat → Prop) (d d' : Data) : Prop where
  base : d'.base = d.base
  length : d'.bytes.length = d.bytes.length
  byte : ∀ i, A i → d'.bytes[i]? = d.bytes[i]?

/-- Two passes that differ in nothing but the buffer. -/
def PassAlike (A : Nat → Prop) : Pass Vm Exit → Pass Vm Exit → Prop
  | .again m, .again m' => ∃ d', m' = { m with data := d' } ∧ m.data.Alike A d'
  | .done m r, .done m' r' => r' = r ∧ ∃ d', m' = { m with data := d' } ∧ m.data.Alike A d'
  | _, _ => False

theorem Data.Alike.offset (h : d.Alike A d') (size : Nat) (addr : Long) :
    d'.offset size addr = d.offset size addr := by
  rw [Data.offset, Data.offset, h.base, h.length]

theorem offset_fits {size off : Nat} {addr : Long} (h : d.offset size addr = some off) :
    off + size ≤ d.bytes.length := by
  unfold Data.offset at h
  by_cases hfit : (addr - d.base).toNat + size ≤ d.bytes.length
  · rw [if_pos hfit] at h
    cases h
    exact hfit
  · rw [if_neg hfit] at h
    cases h

theorem Data.Alike.load {size off : Nat} {addr : Long} (h : d.Alike A d')
    (hoff : d.offset size addr = some off) (hA : ∀ i, off ≤ i → i < off + size → A i) :
    d'.load size addr = d.load size addr := by
  have hbytes : (d'.bytes.drop off).take size = (d.bytes.drop off).take size := by
    apply List.ext_getElem?
    intro j
    by_cases hj : j < size
    · rw [List.getElem?_take_of_lt hj, List.getElem?_take_of_lt hj, List.getElem?_drop, List.getElem?_drop]
      exact h.byte _ (hA _ (by omega) (by omega))
    · rw [List.getElem?_take_eq_none (by omega), List.getElem?_take_eq_none (by omega)]
  rw [Data.load, Data.load, h.offset, hoff, Option.map_some, Option.map_some, hbytes]

theorem natBytes_length (n v : Nat) : (natBytes n v).length = n := by
  induction n generalizing v with
  | zero => rfl
  | succ n ih => rw [natBytes, List.length_cons, ih]

/-- The same store leaves the buffers alike. -/
theorem Data.Alike.store (h : d.Alike A d') (size : Nat) (addr v : Long) :
    (d.store size addr v = none ∧ d'.store size addr v = none) ∨
      ∃ e e', d.store size addr v = some e ∧ d'.store size addr v = some e' ∧ e.Alike A e' := by
  rw [Data.store, Data.store, h.offset]
  cases hoff : d.offset size addr with
  | none => exact .inl ⟨rfl, rfl⟩
  | some off =>
    refine .inr ⟨_, _, rfl, rfl, h.base, ?_, ?_⟩
    · simp [h.length]
    · intro i hi
      have hfit := offset_fits hoff
      have hbyte := h.byte i hi
      have hlen := h.length
      simp only [List.getElem?_append, List.length_append, List.length_take, natBytes_length,
        List.getElem?_take, List.getElem?_drop, hlen]
      split
      · split
        · split
          · exact hbyte
          · rfl
        · rfl
      · have hback : off + size + (i - (min off d.bytes.length + size)) = i := by omega
        rw [hback, hbyte]

/-- With the same bytes everywhere the buffers are one. -/
theorem Data.Alike.eq (h : d.Alike A d') (hA : ∀ i < d.bytes.length, A i) : d' = d := by
  have hbytes : d'.bytes = d.bytes := by
    apply List.ext_getElem?
    intro i
    by_cases hi : i < d.bytes.length
    · exact h.byte i (hA i hi)
    · rw [List.getElem?_eq_none (by rw [h.length]; omega), List.getElem?_eq_none (by omega)]
  cases d
  cases d'
  cases h.base
  cases hbytes
  rfl

theorem passAlike_refl (p : Pass Vm Exit) : PassAlike A p p := by
  cases p with
  | again m => exact ⟨m.data, rfl, rfl, rfl, fun _ _ => rfl⟩
  | done m r => exact ⟨rfl, m.data, rfl, rfl, rfl, fun _ _ => rfl⟩

variable {pc : Nat} {a w : Long} {stack : List Long}

/-- A load of bytes in `A`. -/
theorem li_alike (hop : insn[pc]? = some w) (hw : Op.ofWord w = some .li) (h : d.Alike A d')
    (hA : ∀ i, (∃ n off, insn[pc + 1]? = some n ∧ d.offset n.toNat a = some off ∧ off ≤ i ∧
      i < off + n.toNat) → A i) :
    PassAlike A (step lib insn ⟨pc, a, stack, d⟩) (step lib insn ⟨pc, a, stack, d'⟩) := by
  simp only [step, hop, hw]
  cases harg : insn[pc + 1]? with
  | none => exact ⟨rfl, d', rfl, h⟩
  | some n =>
    dsimp only
    by_cases hsize : isSize n = true
    · rw [if_pos hsize, if_pos hsize]
      cases hoff : d.offset n.toNat a with
      | none =>
        have hoff' := (h.offset n.toNat a).trans hoff
        simp only [Data.load, hoff, hoff', Option.map_none]
        exact ⟨rfl, d', rfl, h⟩
      | some off =>
        have hload := h.load hoff fun i hi hi' => hA i ⟨n, off, harg, hoff, hi, hi'⟩
        rw [hload]
        cases d.load n.toNat a with
        | none => exact ⟨rfl, d', rfl, h⟩
        | some v => exact ⟨d', rfl, h⟩
    · rw [if_neg hsize, if_neg hsize]
      exact ⟨rfl, d', rfl, h⟩

/-- A store goes to the same place. -/
theorem si_alike (hop : insn[pc]? = some w) (hw : Op.ofWord w = some .si) (h : d.Alike A d') :
    PassAlike A (step lib insn ⟨pc, a, stack, d⟩) (step lib insn ⟨pc, a, stack, d'⟩) := by
  simp only [step, hop, hw]
  cases insn[pc + 1]? with
  | none => exact ⟨rfl, d', rfl, h⟩
  | some n =>
    cases stack with
    | nil => exact ⟨rfl, d', rfl, h⟩
    | cons addr rest =>
      dsimp only
      by_cases hsize : isSize n = true
      · rw [if_pos hsize, if_pos hsize]
        cases h.store n.toNat addr a with
        | inl hnone =>
          rw [hnone.1, hnone.2]
          exact ⟨rfl, d', rfl, h⟩
        | inr hsome =>
          obtain ⟨e, e', he, he', halike⟩ := hsome
          rw [he, he']
          exact ⟨e', rfl, halike⟩
      · rw [if_neg hsize, if_neg hsize]
        exact ⟨rfl, d', rfl, h⟩

/-- A step that reads in `A` only is the same from buffers that are alike there. -/
theorem step_alike (h : m.data.Alike A d') (hA : ∀ i, Looks insn m i → A i) :
    PassAlike A (step lib insn m) (step lib insn { m with data := d' }) := by
  obtain ⟨pc, a, stack, data⟩ := m
  cases hop : insn[pc]? with
  | none =>
    simp only [step, hop]
    exact ⟨rfl, d', rfl, h⟩
  | some w =>
    cases hw : Op.ofWord w with
    | none =>
      simp only [step, hop, hw]
      exact ⟨rfl, d', rfl, h⟩
    | some op =>
      have hlooks (i : Nat) (hi : Looks insn ⟨pc, a, stack, data⟩ i) : A i := hA i hi
      simp only [Looks, hop, Option.bind_some, hw] at hlooks
      cases op
      case li =>
        exact li_alike hop hw h hlooks
      case si =>
        exact si_alike hop hw h
      case ksym | prtf | strncmp =>
        have heq : d' = data := h.eq hlooks
        subst heq
        exact passAlike_refl _
      case imm | jmp | bz | bnz =>
        simp only [step, hop, hw]
        cases insn[pc + 1]? with
        | none => exact ⟨rfl, d', rfl, h⟩
        | some v => exact ⟨d', rfl, h⟩
      case adj =>
        simp only [step, hop, hw]
        cases insn[pc + 1]? with
        | none => exact ⟨rfl, d', rfl, h⟩
        | some n =>
          dsimp only
          split
          · exact ⟨d', rfl, h⟩
          · exact ⟨rfl, d', rfl, h⟩
      case psh =>
        simp only [step, hop, hw]
        split
        · exact ⟨d', rfl, h⟩
        · exact ⟨rfl, d', rfl, h⟩
      case nthl | nths =>
        simp only [step, hop, hw]
        split
        · exact ⟨d', rfl, h⟩
        · exact ⟨rfl, d', rfl, h⟩
      case exit | lea | jsr | ent | lev =>
        simp only [step, hop, hw]
        exact ⟨rfl, d', rfl, h⟩
      all_goals
        simp only [step, hop, hw]
        cases stack with
        | nil => exact ⟨rfl, d', rfl, h⟩
        | cons x rest =>
          dsimp only
          generalize Op.apply _ x a = r
          cases r with
          | none => exact ⟨rfl, d', rfl, h⟩
          | some v => exact ⟨d', rfl, h⟩

theorem iterate_alike {n : Nat} {t : Vm} {r : Exit} (h : m.data.Alike A d')
    (hA : ∀ m', Visits (step lib insn) m m' → ∀ i, Looks insn m' i → A i)
    (hn : iterate (step lib insn) n m = some (t, r)) :
    ∃ e, iterate (step lib insn) n { m with data := d' } = some ({ t with data := e }, r) ∧
      t.data.Alike A e := by
  induction n generalizing m d' with
  | zero => cases hn
  | succ n ih =>
    have hstep : PassAlike A (step lib insn m) (step lib insn { m with data := d' }) :=
      step_alike h (hA m .here)
    cases hm : step lib insn m with
    | again u =>
      rw [iterate_again hm] at hn
      cases hm' : step lib insn { m with data := d' } with
      | again u' =>
        rw [hm, hm'] at hstep
        obtain ⟨e, rfl, he⟩ := hstep
        rw [iterate_again hm']
        exact ih he (fun m' hv => hA m' (hv.after hm)) hn
      | done u' r' =>
        rw [hm, hm'] at hstep
        exact hstep.elim
    | done u r' =>
      rw [iterate_done hm] at hn
      cases hn
      cases hm' : step lib insn { m with data := d' } with
      | again u' =>
        rw [hm, hm'] at hstep
        exact hstep.elim
      | done u' r' =>
        rw [hm, hm'] at hstep
        obtain ⟨rfl, e, rfl, he⟩ := hstep
        exact ⟨e, iterate_done hm' n, he⟩

/-- A run is the same with buffers that are alike where it reads. -/
theorem exprRun_alike {n : Nat} {e : Data} {r : Exit}
    (h : d.Alike A d') (hA : ∀ i, RunReads lib insn d i → A i)
    (hrun : exprRun lib insn n d = some (e, r)) :
    ∃ e', exprRun lib insn n d' = some (e', r) ∧ e.Alike A e' := by
  obtain ⟨⟨t, r'⟩, hout, hr⟩ := Option.map_eq_some_iff.mp hrun
  cases hr
  obtain ⟨e', he', halike⟩ := iterate_alike (m := ⟨1, 0, [], d⟩) h
    (fun m hm i hi => hA i ⟨m, hm, hi⟩) hout
  exact ⟨e', by rw [exprRun, he']; rfl, halike⟩

end Alike

end PerfProf.Expr
