import Mathlib.Tactic.IntervalCases
import PerfProf.ExprCode

/-! The simulator on the code of an expression: it computes the value of the tree, leaves the
stack as it was and stops right after the code. -/
namespace PerfProf.Expr
open Loop

section Machine
variable {lib : Library} {insn : List Long} {b b' : Nat} {is js : List Ins} {a v x p : Long}
  {S : List Long} {d d' : Data} {m m' m'' : Vm}

/-- The instructions `is` stand in the code at index `b`. -/
def CodeAt (insn : List Long) (b : Nat) (is : List Ins) : Prop :=
  ∃ front back, insn = front ++ (words is ++ back) ∧ front.length = b

theorem CodeAt.left (h : CodeAt insn b (is ++ js)) : CodeAt insn b is := by
  obtain ⟨front, back, rfl, rfl⟩ := h
  exact ⟨front, words js ++ back, by simp, rfl⟩

theorem CodeAt.right (h : CodeAt insn b (is ++ js)) : CodeAt insn (b + size is) js := by
  obtain ⟨front, back, rfl, rfl⟩ := h
  exact ⟨front ++ words is, back, by simp, by simp⟩

theorem CodeAt.tail {i : Ins} (h : CodeAt insn b (i :: is)) : CodeAt insn (b + i.words.length) is := by
  have hright := CodeAt.right (show CodeAt insn b ([i] ++ is) from h)
  simpa using hright

theorem CodeAt.to (h : CodeAt insn b is) (hb : b = b') : CodeAt insn b' is := hb ▸ h

theorem CodeAt.op {i : Ins} (h : CodeAt insn b (i :: is)) : insn[b]? = some i.op := by
  obtain ⟨front, back, rfl, rfl⟩ := h
  simp [Ins.words]

theorem CodeAt.arg {op : Op} {w : Long} (h : CodeAt insn b (insArg op w :: is)) :
    insn[b + 1]? = some w := by
  obtain ⟨front, back, rfl, rfl⟩ := h
  simp

theorem ofWord_word (op : Op) : Op.ofWord op.word = some op := by
  cases op <;> rfl

/-- `m'` is reached from `m`. -/
def Runs (lib : Library) (insn : List Long) (m m' : Vm) : Prop := Visits (step lib insn) m m'

theorem Runs.trans (h : Runs lib insn m m') (h' : Runs lib insn m' m'') : Runs lib insn m m'' := by
  induction h' with
  | here => exact h
  | next _ hb ih => exact .next ih hb

theorem Runs.one (h : step lib insn m = .again m') : Runs lib insn m m' := .next .here h

theorem runs_imm (h : CodeAt insn b (insArg .imm v :: is)) :
    Runs lib insn ⟨b, a, S, d⟩ ⟨b + 2, v, S, d⟩ := by
  apply Runs.one
  simp [step, h.op, h.arg, insArg, ofWord_word]

theorem runs_psh (h : CodeAt insn b (ins .psh :: is)) (hS : S.length < 512) :
    Runs lib insn ⟨b, a, S, d⟩ ⟨b + 1, a, a :: S, d⟩ := by
  apply Runs.one
  simp [step, h.op, ins, ofWord_word, hS]

/-- The sizes that `LI` and `SI` know. -/
def IsWidth (n : Nat) : Prop := n = 1 ∨ n = 2 ∨ n = 4 ∨ n = 8

theorem isSize_word {n : Nat} (h : IsWidth n) : isSize (word n) = true ∧ (word n).toNat = n := by
  rcases h with rfl | rfl | rfl | rfl <;> decide

theorem runs_li {n : Nat} (h : CodeAt insn b (insArg .li (word n) :: is)) (hn : IsWidth n)
    (hload : d.load n a = some v) : Runs lib insn ⟨b, a, S, d⟩ ⟨b + 2, v, S, d⟩ := by
  obtain ⟨hsize, hnat⟩ := isSize_word hn
  apply Runs.one
  simp [step, h.op, h.arg, insArg, ofWord_word, hsize, hnat, hload]

theorem runs_si {n : Nat} (h : CodeAt insn b (insArg .si (word n) :: is)) (hn : IsWidth n)
    (hstore : d.store n p a = some d') :
    Runs lib insn ⟨b, a, p :: S, d⟩ ⟨b + 2, a, S, d'⟩ := by
  obtain ⟨hsize, hnat⟩ := isSize_word hn
  apply Runs.one
  simp [step, h.op, h.arg, insArg, ofWord_word, hsize, hnat, hstore]

/-- An operator takes its left operand from the stack. -/
theorem runs_op {op : Op} (h : CodeAt insn b (ins op :: is)) (hop : op.apply x a = some v) :
    Runs lib insn ⟨b, a, x :: S, d⟩ ⟨b + 1, v, S, d⟩ := by
  have hget : insn[b]? = some op.word := h.op
  apply Runs.one
  cases op <;> first
    | simp only [step, hget, ofWord_word, hop, Option.map_some]; done
    | cases hop

theorem toNat_word {n : Nat} (h : n < 2 ^ 64) : (word n).toNat = n := by
  rw [word, BitVec.toNat_ofNat]
  exact Nat.mod_eq_of_lt h

theorem codeIndex_codePtr {t : Nat} (h : t < le) : codeIndex (codePtr t) = t := by
  have hptr : codePtr t = word le + word t := by
    rw [codePtr, Nat.mod_eq_of_lt h, word, BitVec.ofNat_add]
    rfl
  rw [codeIndex, hptr, BitVec.add_comm, BitVec.add_sub_cancel]
  exact toNat_word (Nat.lt_trans h (by decide))

theorem target_lt {t : Nat} (h : t ≤ 1024) : t < le := Nat.lt_of_le_of_lt h (by decide)

theorem runs_jmp {t : Nat} (h : CodeAt insn b (insArg .jmp (codePtr t) :: is)) (ht : t < le) :
    Runs lib insn ⟨b, a, S, d⟩ ⟨t, a, S, d⟩ := by
  apply Runs.one
  simp [step, h.op, h.arg, insArg, ofWord_word, codeIndex_codePtr ht]

theorem runs_bz {t : Nat} (h : CodeAt insn b (insArg .bz (codePtr t) :: is)) (ht : t < le) :
    Runs lib insn ⟨b, a, S, d⟩ ⟨if a = 0 then t else b + 2, a, S, d⟩ := by
  apply Runs.one
  simp [step, h.op, h.arg, insArg, ofWord_word, codeIndex_codePtr ht]

theorem runs_bnz {t : Nat} (h : CodeAt insn b (insArg .bnz (codePtr t) :: is)) (ht : t < le) :
    Runs lib insn ⟨b, a, S, d⟩ ⟨if a = 0 then b + 2 else t, a, S, d⟩ := by
  apply Runs.one
  simp [step, h.op, h.arg, insArg, ofWord_word, codeIndex_codePtr ht]

theorem runs_adj {n : Nat} (h : CodeAt insn b (insArg .adj (word n) :: is)) (hn : n < 2 ^ 64)
    (hS : n ≤ S.length) : Runs lib insn ⟨b, a, S, d⟩ ⟨b + 2, a, S.drop n, d⟩ := by
  apply Runs.one
  simp [step, h.op, h.arg, insArg, ofWord_word, toNat_word hn, hS]

/-- A library call and the instruction that takes its arguments off the stack. -/
theorem runs_call {s : Symbol} {xs : List Long}
    (h : CodeAt insn b (⟨s.value, none⟩ :: insArg .adj (word xs.length) :: is))
    (hlen : xs.length < 2 ^ 64) (hv : callValue lib s xs d = some v) :
    Runs lib insn ⟨b, a, xs.reverse ++ S, d⟩ ⟨b + 3, v, S, d⟩ := by
  have hget : insn[b]? = some s.value := h.op
  have hcall : Runs lib insn ⟨b, a, xs.reverse ++ S, d⟩ ⟨b + 1, v, xs.reverse ++ S, d⟩ := by
    apply Runs.one
    -- the argument pushed last is on top of the stack
    have htop : ∀ f : Long → Long, xs.getLast?.map f = some v →
        ∃ y l, xs.reverse ++ S = y :: l ∧ f y = v := by
      intro f hf
      obtain ⟨y, hy, hfy⟩ := Option.map_eq_some_iff.mp hf
      obtain ⟨ys, rfl⟩ := List.getLast?_eq_some_iff.mp hy
      exact ⟨y, ys.reverse ++ S, by simp, hfy⟩
    have harg : insn[b + 2]? = some (word xs.length) := h.tail.arg
    unfold callValue at hv
    simp only [step, hget]
    split at hv
    · rename_i hop
      obtain ⟨y, l, hl, rfl⟩ := htop ntohl hv
      simp [hop, hl]
    · rename_i hop
      obtain ⟨y, l, hl, rfl⟩ := htop ntohs hv
      simp [hop, hl]
    · rename_i hop
      obtain ⟨y, l, hl, rfl⟩ := htop _ hv
      simp [hop, hl]
    · rename_i hop
      simp only [Option.ite_none_left_eq_some, Option.some.injEq] at hv
      simp [hop, harg, toNat_word hlen, hv.2]
    · rename_i hop
      simp only [Option.ite_none_left_eq_some, Option.some.injEq] at hv
      simp [hop, harg, toNat_word hlen, hv.2]
    · cases hv
  have hadj : Runs lib insn _ _ := runs_adj (a := v) (S := xs.reverse ++ S) (d := d) h.tail hlen (by simp)
  rw [List.drop_left' List.length_reverse] at hadj
  exact hcall.trans hadj

end Machine

section Types

/-- No array bit is left in the type of an expression. -/
def TypeOk (ty : Nat) : Prop := ty % ptr < array

theorem width_isWidth {ty : Nat} (h : TypeOk ty) : IsWidth (width ty) := by
  unfold width
  split
  · exact Or.inr (Or.inr (Or.inr rfl))
  · rename_i hlt
    have hty : ty < 4 := by
      unfold TypeOk ptr array at h
      unfold ptr at hlt
      omega
    interval_cases ty <;> simp [IsWidth]

theorem stride_eq {t : Nat} (h : ptr ≤ t) : stride t = pointee t := by
  unfold stride pointee width
  rw [if_pos h]
  unfold ptr at *
  by_cases h2 : 8 + 8 ≤ t
  · rw [if_pos h2, if_pos (by omega)]
  · rw [if_neg h2, if_neg (by omega)]

theorem incStep_eq (ty : Nat) : incStep ty = pointee ty := by
  unfold incStep
  split
  · exact stride_eq ‹_›
  · rename_i h
    rw [pointee, if_neg h]

theorem pointee_of_le {t : Nat} (h : t ≤ ptr) : pointee t = 1 := by
  unfold pointee
  split
  · rename_i hle
    rw [Nat.le_antisymm h hle]
    rfl
  · rfl

theorem TypeOk.sub {ty : Nat} (h : TypeOk ty) (hp : ptr ≤ ty) : TypeOk (ty - ptr) := by
  unfold TypeOk ptr array at *
  omega

theorem TypeOk.add {ty : Nat} (h : TypeOk ty) : TypeOk (ty + ptr) := by
  unfold TypeOk ptr array at *
  omega

theorem typeOk_cast {type : Nat} (h : type < array) (n : Nat) : TypeOk (type + n * ptr) := by
  unfold TypeOk ptr array at *
  omega

theorem typeOk_var {s : Symbol} (hcls : s.cls = .glo) (h : s.type < ptr) :
    TypeOk (Exp.var s).type := by
  have hall : ∀ ty < 8, TypeOk (if ty &&& array ≠ 0 then ty ^^^ array ||| ptr else ty) := by
    unfold TypeOk
    decide
  have hs := hall s.type h
  simpa [Exp.type, Symbol.isArray, hcls] using hs

theorem typeOk_int : TypeOk tyInt := (by decide : tyInt % ptr < array)

/-- The functions of the library. -/
def library : List Symbol :=
  [⟨.sys, tyInt, Op.prtf.word, true⟩, ⟨.sys, 0 ||| ptr, Op.ksym.word, true⟩,
    ⟨.sys, tyInt, Op.nthl.word, true⟩, ⟨.sys, tyShort, Op.nths.word, true⟩,
    ⟨.sys, tyInt, Op.strncmp.word, true⟩]

theorem cls_library {s : Symbol} (h : s ∈ library) : s.cls = .sys := by
  have hall : ∀ s ∈ library, s.cls = .sys := by decide
  exact hall s h

theorem typeOk_library {s : Symbol} (h : s ∈ library) : TypeOk s.type := by
  have hall : ∀ s ∈ library, s.type % ptr < array := by decide
  exact hall s h

mutual

/-- Variables, functions and type names have the types of a symbol table. -/
def Exp.Declared : Exp → Prop
  | .num _ | .negNum _ | .str .. => True
  | .var s => s.cls = .glo ∧ s.type < ptr
  | .sizeof type _ => type < array
  | .call s as => s ∈ library ∧ as.Declared
  | .paren e | .un _ e | .deref e | .addr e | .pre _ e | .post _ e => e.Declared
  | .cast type _ e => type < array ∧ e.Declared
  | .index l r | .bin _ l r | .land l r | .lor l r | .assign l r => l.Declared ∧ r.Declared
  | .cond c t f => c.Declared ∧ t.Declared ∧ f.Declared

def Args.Declared : Args → Prop
  | .nil => True
  | .cons e _ rest => e.Declared ∧ rest.Declared

end

theorem typeOk_of_declared : ∀ e : Exp, e.Declared → e.Checked → TypeOk e.type
  | .num _, _, _ | .negNum _, _, _ | .sizeof .., _, _ | .un .., _, _ | .land .., _, _
  | .lor .., _, _ => typeOk_int
  | .str .., _, _ => (by decide : ptr % ptr < array)
  | .var _, h, _ => typeOk_var h.1 h.2
  | .call _ _, h, _ => typeOk_library h.1
  | .paren e, h, hc => typeOk_of_declared e h hc
  | .post _ e, h, hc | .pre _ e, h, hc => typeOk_of_declared e h hc.1
  | .index e _, h, hc => (typeOk_of_declared e h.1 hc.1).sub hc.2.2
  | .deref e, h, hc => (typeOk_of_declared e h hc.1).sub hc.2
  | .addr e, h, hc => (typeOk_of_declared e h hc.1).add
  | .cast _ n _, h, _ => typeOk_cast h.1 n
  | .bin op l r, h, hc => by
    have hl := typeOk_of_declared l h.1 hc.1
    cases op with
    | add => exact hl
    | sub =>
      simp only [Exp.type]
      split
      · exact typeOk_int
      · exact hl
    | _ => exact typeOk_int
  | .cond _ _ f, h, hc => typeOk_of_declared f h.2.2 hc.2.2
  | .assign l _, h, hc => typeOk_of_declared l h.1 hc.1

theorem net_library {s : Symbol} (h : isNet s = true) : s ∈ library := by
  simp only [isNet, Bool.or_eq_true, decide_eq_true_eq] at h
  rcases h with rfl | rfl <;> decide

theorem declared_of_grammar : ∀ e : Exp, e.Grammar → e.Declared
  | .num _, _ | .negNum _, _ => trivial
  | .str .., h => h.elim
  | .sizeof .., h => h
  | .var _, h => h
  | .call _ (.cons e false .nil), h => ⟨net_library h.1, declared_of_grammar e h.2, trivial⟩
  | .call _ .nil, h => h.2.elim
  | .call _ (.cons _ true _), h => h.2.elim
  | .call _ (.cons _ false (.cons ..)), h => h.2.elim
  | .paren e, h => declared_of_grammar e h
  | .un _ e, h | .deref e, h | .addr e, h | .pre _ e, h | .post _ e, h => declared_of_grammar e h.1
  | .cast _ _ e, h => ⟨h.2.2, declared_of_grammar e h.1⟩
  | .index l r, h | .bin _ l r, h | .land l r, h | .lor l r, h | .assign l r, h =>
    ⟨declared_of_grammar l h.1, declared_of_grammar r h.2.1⟩
  | .cond c t f, h =>
    ⟨declared_of_grammar c h.1, declared_of_grammar t h.2.1, declared_of_grammar f h.2.2.1⟩

theorem checked_of_grammar : ∀ e : Exp, e.Grammar → e.Checked
  | .num _, _ | .negNum _, _ | .sizeof .., _ => trivial
  | .str .., h => h.elim
  | .var _, h => Or.inr (Or.inr h.1)
  | .call s (.cons e false .nil), h => by
    exact ⟨Or.inl (cls_library (net_library h.1)), checked_of_grammar e h.2, trivial⟩
  | .call _ .nil, h => h.2.elim
  | .call _ (.cons _ true _), h => h.2.elim
  | .call _ (.cons _ false (.cons ..)), h => h.2.elim
  | .paren e, h => checked_of_grammar e h
  | .un _ e, h | .cast _ _ e, h => checked_of_grammar e h.1
  | .index e i, h => ⟨checked_of_grammar e h.1, checked_of_grammar i h.2.1, h.2.2.2⟩
  | .deref e, h => ⟨checked_of_grammar e h.1, h.2.2⟩
  | .post _ e, h | .pre _ e, h | .addr e, h => ⟨checked_of_grammar e h.1, h.2.2⟩
  | .bin _ l r, h | .land l r, h | .lor l r, h =>
    ⟨checked_of_grammar l h.1, checked_of_grammar r h.2.1⟩
  | .cond c t f, h =>
    ⟨checked_of_grammar c h.1, checked_of_grammar t h.2.1, checked_of_grammar f h.2.2.1⟩
  | .assign l r, h => ⟨checked_of_grammar l h.1, checked_of_grammar r h.2.1, h.2.2.2⟩

end Types

section Segments
variable {lib : Library} {insn : List Long} {b : Nat} {a v x y p : Long} {S : List Long} {d d' : Data}

theorem Runs.to {m : Vm} {n n' : Nat} (h : Runs lib insn m ⟨n, v, S, d⟩) (hn : n = n') :
    Runs lib insn m ⟨n', v, S, d⟩ := hn ▸ h

/-- The right operand is scaled to the elements of the left one. -/
theorem runs_scale {t : Nat} (h : CodeAt insn b (scaleCode t)) (hS : S.length < 512) :
    Runs lib insn ⟨b, a, S, d⟩ ⟨b + size (scaleCode t), a * word (pointee t), S, d⟩ := by
  unfold scaleCode at h ⊢
  split
  · rename_i ht
    rw [if_pos ht] at h
    have himm : Runs lib insn _ _ := runs_imm (a := a) (S := a :: S) (d := d) h.tail
    have hmul : Runs lib insn _ _ := runs_op (x := a) (S := S) (d := d) h.tail.tail
      (rfl : Op.mul.apply a (word (stride t)) = _)
    rw [← stride_eq (Nat.le_of_lt ht)]
    exact ((runs_psh h hS).trans himm).trans hmul
  · rename_i ht
    rw [pointee_of_le (Nat.le_of_not_lt ht)]
    have hone : a * word 1 = a := BitVec.mul_one a
    rw [hone]
    exact .here

theorem stride_word {t : Nat} (h : ptr < t) : word (stride t) ≠ 0 ∧ word (stride t) ≠ -1 := by
  have hsmall : stride t = 8 ∨ ∃ k < 8, stride t = 1 <<< k := by
    unfold stride
    split
    · exact Or.inl rfl
    · rename_i hlt
      refine Or.inr ⟨t - ptr, ?_, rfl⟩
      unfold ptr at *
      omega
  have hall : ∀ k < 8, word (1 <<< k) ≠ 0 ∧ word (1 <<< k) ≠ -1 := by decide
  rcases hsmall with h8 | ⟨k, hk, hs⟩
  · rw [h8]
    decide
  · rw [hs]
    exact hall k hk

/-- What follows the right operand of a binary operator. -/
theorem runs_bin {op : BinOp} {tl tr : Nat} (h : CodeAt insn b (op.code tl tr))
    (hS : S.length + 1 < 512) (hv : op.apply tl tr x y = some v) :
    Runs lib insn ⟨b, y, x :: S, d⟩ ⟨b + size (op.code tl tr), v, S, d⟩ := by
  have hscaled : ∀ o : Op, CodeAt insn b (scaleCode tl ++ [ins o]) →
      o.apply x (y * word (pointee tl)) = some v →
      Runs lib insn ⟨b, y, x :: S, d⟩ ⟨b + size (scaleCode tl ++ [ins o]), v, S, d⟩ := by
    intro o hat ho
    refine ((runs_scale (S := x :: S) hat.left hS).trans (runs_op hat.right ho)).to ?_
    simp [Nat.add_assoc]
  cases op with
  | add => exact hscaled .add h hv
  | sub =>
    simp only [BinOp.code] at h ⊢
    simp only [BinOp.apply] at hv
    split
    · rename_i ht
      rw [if_pos ht] at h
      rw [if_pos ⟨Nat.le_of_lt ht.1, ht.2⟩, ← stride_eq (Nat.le_of_lt ht.1)] at hv
      have hdiv : Op.div.apply (x - y) (word (stride tl)) = some v := by
        obtain ⟨h0, h1⟩ := stride_word ht.1
        rw [← hv]
        simp only [Op.apply]
        rw [if_neg]
        rintro (hz | ⟨-, hm⟩)
        · exact h0 hz
        · exact h1 hm
      exact ((runs_op h (rfl : Op.sub.apply x y = some (x - y))).trans
        (runs_psh h.tail (Nat.lt_of_succ_lt hS))).trans
        ((runs_imm h.tail.tail).trans (runs_op h.tail.tail.tail hdiv))
    · rename_i ht
      rw [if_neg ht] at h
      refine hscaled .sub h ?_
      split at hv
      · rename_i hp
        have hle : tl ≤ ptr := by
          by_contra hlt
          exact ht ⟨Nat.lt_of_not_le hlt, hp.2⟩
        rw [pointee_of_le hle] at hv ⊢
        have hone : y * word 1 = y := BitVec.mul_one y
        have hdiv : (x - y).sdiv (word 1) = x - y := BitVec.sdiv_one
        rw [hdiv] at hv
        rw [hone]
        exact hv
      · exact hv
  | _ => exact runs_op h hv

/-- The load, the change and the store of `++` and `--`, with the address on the stack. -/
theorem runs_inc {inc : Bool} {ty : Nat} (h : CodeAt insn b
      (ins .psh :: insArg .li (word (width ty)) :: incCode inc ty)) (hty : TypeOk ty)
    (hS : S.length + 1 < 512) (hload : d.load (width ty) p = some v)
    (hstore : d.store (width ty) p (v + incDelta inc ty) = some d') :
    Runs lib insn ⟨b, p, S, d⟩ ⟨b + 9, v + incDelta inc ty, S, d'⟩ := by
  have hw := width_isWidth hty
  have hop : (if inc then Op.add else Op.sub).apply v (word (incStep ty)) =
      some (v + incDelta inc ty) := by
    rw [incStep_eq]
    cases inc with
    | true => rfl
    | false => exact congrArg some (BitVec.sub_eq_add_neg _ _)
  refine (((runs_psh h (Nat.lt_of_succ_lt hS)).trans (runs_li h.tail hw hload)).trans
    (runs_psh h.tail.tail hS)).trans ?_
  exact ((runs_imm h.tail.tail.tail).trans (runs_op h.tail.tail.tail.tail hop)).trans
    (runs_si h.tail.tail.tail.tail.tail hw hstore)

end Segments

section Evaluate

mutual

/-- No code is empty, so each word on the stack has an instruction before the one that pushes. -/
theorem size_code_pos : ∀ (e : Exp) (b : Nat), e.Checked → 1 ≤ size (e.code b)
  | .num _, b, _ | .negNum _, b, _ | .str .., b, _ | .sizeof .., b, _ => by simp [Exp.code]
  | .var s, b, _ => by
    simp [Exp.code, words_base]
    omega
  | .call s as, b, _ => by
    have hone : 1 ≤ s.callIns.words.length := Nat.succ_le_succ (Nat.zero_le _)
    simp [Exp.code]
    omega
  | .paren e, b, h => size_code_pos e b h
  | .cast _ _ e, b, h => size_code_pos e b h
  | .deref _, b, _ => by simp [Exp.code]
  | .index .., b, _ | .post .., b, _ | .pre .., b, _ => by
    simp [Exp.code]
    omega
  | .addr e, b, h => size_addrCode_pos e b h.1 h.2
  | .un op e, b, h => by
    cases op with
    | plus => exact size_code_pos e b h
    | minus =>
      simp [Exp.code]
      omega
    | _ => simp [Exp.code]
  | .bin .., b, _ | .land .., b, _ | .lor .., b, _ | .cond .., b, _ | .assign .., b, _ => by
    simp [Exp.code]
    omega

theorem size_addrCode_pos : ∀ (e : Exp) (b : Nat), e.Checked → e.isLvalue = true →
    1 ≤ size (e.addrCode b)
  | .var _, b, _, _ => by simp [Exp.addrCode]
  | .deref e, b, h, _ => size_code_pos e b h.1
  | .index .., b, _, _ => by
    simp [Exp.addrCode]
    omega
  | .paren e, b, h, hl => size_addrCode_pos e b h hl

end

/-- Room for the code of `n` words at `b` and for the stack below it: every word on the stack took
two words of code. -/
structure Room (b : Nat) (S : List Long) (n : Nat) : Prop where
  stack : 2 * S.length + 1 ≤ b
  code : b + n ≤ 1024

variable {lib : Library} {insn : List Long} {e i l r : Exp}

/-- Running the code of `e` gives the value of `e`. -/
def Computes (lib : Library) (insn : List Long) (e : Exp) : Prop :=
  ∀ (b : Nat) (a : Long) (S : List Long) (d : Data) (v : Long) (d' : Data),
    e.value lib asRun d = some (v, d') → CodeAt insn b (e.code b) → Room b S (size (e.code b)) →
    Runs lib insn ⟨b, a, S, d⟩ ⟨b + size (e.code b), v, S, d'⟩

/-- Running the code of the address of `e` gives that address. -/
def Finds (lib : Library) (insn : List Long) (e : Exp) : Prop :=
  ∀ (b : Nat) (a : Long) (S : List Long) (d : Data) (p : Long) (d' : Data),
    e.spot lib asRun d = some (p, d') → CodeAt insn b (e.addrCode b) →
    Room b S (size (e.addrCode b)) →
    Runs lib insn ⟨b, a, S, d⟩ ⟨b + size (e.addrCode b), p, S, d'⟩

/-- Running the code of the arguments pushes their values. -/
def Pushes (lib : Library) (insn : List Long) (as : Args) : Prop :=
  ∀ (b : Nat) (a : Long) (S : List Long) (d : Data) (xs : List Long) (d' : Data),
    as.values lib asRun d = some (xs, d') → CodeAt insn b (as.code b) →
    Room b S (size (as.code b)) →
    ∃ a', Runs lib insn ⟨b, a, S, d⟩ ⟨b + size (as.code b), a', xs.reverse ++ S, d'⟩

theorem Room.psh {b n k : Nat} {S : List Long} (h : Room b S n) (x : Long) (h1 : 1 ≤ k)
    {n' : Nat} (hn : k + 1 + n' ≤ n) : Room (b + k + 1) (x :: S) n' := by
  obtain ⟨hs, hc⟩ := h
  refine ⟨?_, by omega⟩
  rw [List.length_cons]
  omega

theorem Room.mono {b n n' : Nat} {S : List Long} (h : Room b S n) (hn : n' ≤ n) : Room b S n' :=
  ⟨h.stack, Nat.le_trans (Nat.add_le_add_left hn b) h.code⟩

theorem Room.lt {b n : Nat} {S : List Long} (h : Room b S n) : S.length < 512 := by
  obtain ⟨hs, hc⟩ := h
  omega

/-- The address of `e[i]`, with what comes before the load. -/
theorem runs_index (he : Computes lib insn e) (hi : Computes lib insn i)
    (hpos : ∀ b, 1 ≤ size (e.code b)) {b : Nat} {a p n : Long} {S : List Long} {d d₁ d₂ : Data}
    (hp : e.value lib asRun d = some (p, d₁)) (hn : i.value lib asRun d₁ = some (n, d₂))
    (hat : CodeAt insn b ((Exp.index e i).addrCode b))
    (hroom : Room b S (size ((Exp.index e i).addrCode b))) :
    Runs lib insn ⟨b, a, S, d⟩
      ⟨b + size ((Exp.index e i).addrCode b), p + n * word (pointee e.type), S, d₂⟩ := by
  simp only [Exp.addrCode] at hat hroom ⊢
  obtain ⟨ec, hec⟩ : ∃ ec, e.code b = ec := ⟨_, rfl⟩
  have hpos := hpos b
  rw [hec] at hat hroom hpos ⊢
  obtain ⟨ic, hic⟩ : ∃ ic, i.code (b + size ec + 1) = ic := ⟨_, rfl⟩
  rw [hic] at hat hroom ⊢
  have hsize : size (ec ++ ins .psh :: (ic ++ (scaleCode e.type ++ [ins .add]))) =
      size ec + 1 + size ic + size (scaleCode e.type) + 1 := by
    simp
    omega
  rw [hsize] at hroom ⊢
  have hbase := he b a S d p d₁ hp (hec ▸ hat.left) (hec ▸ hroom.mono (by omega))
  rw [hec] at hbase
  have hroom₁ : Room (b + size ec + 1) (p :: S) (size ic + size (scaleCode e.type) + 1) :=
    hroom.psh p hpos (by omega)
  have hidx := hi (b + size ec + 1) p (p :: S) d₁ n d₂ hn (hic ▸ hat.right.tail.left)
    (hic ▸ hroom₁.mono (by omega))
  rw [hic] at hidx
  have hscale : Runs lib insn _ _ := runs_scale (a := n) (d := d₂) hat.right.tail.right.left hroom₁.lt
  have hadd : Runs lib insn _ _ := runs_op (S := S) (d := d₂) hat.right.tail.right.right
    (rfl : Op.add.apply p (n * word (pointee e.type)) = _)
  refine (((hbase.trans (runs_psh hat.right hroom.lt)).trans hidx).trans (hscale.trans hadd)).to ?_
  simp
  omega

theorem Computes.index (he : Computes lib insn e) (hi : Computes lib insn i)
    (hpos : ∀ b, 1 ≤ size (e.code b)) (hty : TypeOk (e.type - ptr)) :
    Computes lib insn (.index e i) := by
  intro b a S d v d' hvalue hat hroom
  have hcode := code_lvalue (.index e i) b rfl
  simp only [Exp.value, Option.bind_eq_bind, Option.bind_eq_some_iff, Prod.exists,
    Option.some.injEq, Prod.mk.injEq] at hvalue
  obtain ⟨p, d₁, hp, n, d₂, hn, v', hload, rfl, rfl⟩ := hvalue
  rw [hcode] at hat hroom ⊢
  have haddr := runs_index (a := a) he hi hpos hp hn hat.left (hroom.mono (by simp))
  refine (haddr.trans (runs_li hat.right (width_isWidth hty) hload)).to ?_
  simp
  omega

theorem Finds.index (he : Computes lib insn e) (hi : Computes lib insn i)
    (hpos : ∀ b, 1 ≤ size (e.code b)) : Finds lib insn (.index e i) := by
  intro b a S d p d' hspot hat hroom
  simp only [Exp.spot, Option.bind_eq_bind, Option.bind_eq_some_iff, Prod.exists,
    Option.some.injEq, Prod.mk.injEq] at hspot
  obtain ⟨q, d₁, hq, n, d₂, hn, rfl, rfl⟩ := hspot
  exact runs_index he hi hpos hq hn hat hroom

theorem Computes.deref (he : Computes lib insn e) (hty : TypeOk (e.type - ptr)) :
    Computes lib insn (.deref e) := by
  intro b a S d v d' hvalue hat hroom
  simp only [Exp.value, Option.bind_eq_bind, Option.bind_eq_some_iff, Prod.exists,
    Option.some.injEq, Prod.mk.injEq] at hvalue
  obtain ⟨p, d₁, hp, v', hload, rfl, rfl⟩ := hvalue
  simp only [Exp.code] at hat hroom ⊢
  have hbase := he b a S d p d₁ hp hat.left (hroom.mono (by simp))
  refine (hbase.trans (runs_li hat.right (width_isWidth hty) hload)).to ?_
  simp
  omega

theorem computes_var (lib : Library) (insn : List Long) {s : Symbol} (hcls : s.cls = .glo)
    (hty : s.type < ptr) : Computes lib insn (.var s) := by
  intro b a S d v d' hvalue hat hroom
  have hty := typeOk_var hcls hty
  have hnum : ¬ s.cls = .num := by
    rw [hcls]
    nofun
  simp only [Exp.value] at hvalue
  rw [code_var hcls] at hat ⊢
  rw [Exp.type, if_neg hnum] at hty
  split at hvalue
  · rename_i harr
    cases hvalue
    rw [if_pos harr] at hat ⊢
    exact runs_imm hat
  · rename_i harr
    rw [if_neg harr] at hat hty ⊢
    obtain ⟨v', hload, hpair⟩ := Option.map_eq_some_iff.mp hvalue
    cases hpair
    exact (runs_imm hat).trans (runs_li hat.tail (width_isWidth hty) hload)

theorem length_values : ∀ (as : Args) (d : Data) (xs : List Long) (d' : Data),
    as.values lib asRun d = some (xs, d') → xs.length = as.count
  | .nil, d, xs, d', h => by
    cases h
    rfl
  | .cons e _ rest, d, xs, d', h => by
    simp only [Args.values, Option.bind_eq_bind, Option.bind_eq_some_iff, Prod.exists,
      Option.some.injEq, Prod.mk.injEq] at h
    obtain ⟨x, d₁, -, ys, d₂, hys, rfl, rfl⟩ := h
    rw [List.length_cons, length_values rest d₁ ys d₂ hys, Args.count]

theorem count_le_code : ∀ (as : Args) (b : Nat), as.count ≤ size (as.code b)
  | .nil, _ => Nat.zero_le _
  | .cons e _ rest, b => by
    have := count_le_code rest (b + size (e.code b) + 1)
    simp [Args.count]
    omega

theorem pushes_nil (lib : Library) (insn : List Long) : Pushes lib insn .nil := by
  intro b a S d xs d' hvalues _ _
  cases hvalues
  exact ⟨a, .here⟩

theorem Pushes.cons {as : Args} (he : Computes lib insn e) (has : Pushes lib insn as)
    (hpos : ∀ b, 1 ≤ size (e.code b)) (comma : Bool) : Pushes lib insn (.cons e comma as) := by
  intro b a S d xs d' hvalues hat hroom
  simp only [Args.values, Option.bind_eq_bind, Option.bind_eq_some_iff, Prod.exists,
    Option.some.injEq, Prod.mk.injEq] at hvalues
  obtain ⟨x, d₁, hx, ys, d₂, hys, rfl, rfl⟩ := hvalues
  simp only [Args.code] at hat hroom ⊢
  have hfirst := he b a S d x d₁ hx hat.left (hroom.mono (by simp))
  obtain ⟨a', hrest⟩ := has _ x (x :: S) d₁ ys d₂ hys hat.right.tail
    (hroom.psh x (hpos b) (by simp; omega))
  refine ⟨a', ?_⟩
  rw [List.reverse_cons, List.append_assoc, List.singleton_append]
  refine ((hfirst.trans (runs_psh hat.right hroom.lt)).trans hrest).to ?_
  simp
  omega

theorem Computes.call {as : Args} (has : Pushes lib insn as) {s : Symbol} (hs : s.cls = .sys) :
    Computes lib insn (.call s as) := by
  intro b a S d v d' hvalue hat hroom
  simp only [Exp.value, Option.bind_eq_bind, Option.bind_eq_some_iff, Prod.exists,
    Option.some.injEq, Prod.mk.injEq] at hvalue
  obtain ⟨xs, d₁, hxs, v', hv, rfl, rfl⟩ := hvalue
  have hlen := length_values as d xs d₁ hxs
  have hne : as.count ≠ 0 := by
    rw [← hlen]
    intro h0
    rw [List.length_eq_zero_iff.mp h0] at hv
    unfold callValue at hv
    split at hv <;> cases hv
  rw [code_call hs, if_pos hne] at hat hroom ⊢
  obtain ⟨a', hargs⟩ := has b a S d xs d₁ hxs hat.left (hroom.mono (by simp))
  have hat₁ := hat.right
  rw [← hlen] at hat₁
  have hsmall : xs.length < 2 ^ 64 := by
    have hcount := count_le_code as b
    have hcode := hroom.code
    rw [size_append] at hcode
    omega
  refine (hargs.trans (runs_call hat₁ hsmall hv)).to ?_
  simp
  omega

theorem Computes.cast (he : Computes lib insn e) (type n : Nat) :
    Computes lib insn (.cast type n e) := by
  intro b a S d v d' hvalue hat hroom
  obtain ⟨⟨x, d₁⟩, hx, hpair⟩ := Option.map_eq_some_iff.mp hvalue
  cases hpair
  exact he b a S d x d₁ hx hat hroom

theorem Computes.un (he : Computes lib insn e) (op : UnOp) : Computes lib insn (.un op e) := by
  intro b a S d v d' hvalue hat hroom
  obtain ⟨⟨x, d₁⟩, hx, hpair⟩ := Option.map_eq_some_iff.mp hvalue
  cases hpair
  -- `!` and `~` apply a binary operator to the value and a constant
  have hconst : ∀ (k : Long) (o : Op) (v : Long), o.apply x k = some v →
      CodeAt insn b (e.code b ++ [ins .psh, insArg .imm k, ins o]) →
      Room b S (size (e.code b ++ [ins .psh, insArg .imm k, ins o])) →
      Runs lib insn ⟨b, a, S, d⟩
        ⟨b + size (e.code b ++ [ins .psh, insArg .imm k, ins o]), v, S, d₁⟩ := by
    intro k o v hv hat hroom
    have hbase := he b a S d x d₁ hx hat.left (hroom.mono (by simp))
    refine (((hbase.trans (runs_psh hat.right hroom.lt)).trans (runs_imm hat.right.tail)).trans
      (runs_op hat.right.tail.tail hv)).to ?_
    simp
    omega
  cases op with
  | plus => exact he b a S d x d₁ hx hat hroom
  | not => exact hconst 0 .eq _ rfl hat hroom
  | compl =>
    refine hconst (-1) .xor _ (congrArg some ?_) hat hroom
    show x ^^^ BitVec.allOnes 64 = ~~~x
    exact BitVec.xor_allOnes
  | minus =>
    simp only [Exp.code] at hat hroom ⊢
    have hroom₁ : Room (b + 2 + 1) (-1 :: S) (size (e.code (b + 3))) :=
      hroom.psh (-1) (by decide) (by simp; omega)
    have hbase := he (b + 3) (-1) (-1 :: S) d x d₁ hx hat.tail.tail.left hroom₁
    have hmul : Op.mul.apply (-1) x = some (-x) := by
      exact congrArg some (neg_one_mul x)
    refine (((runs_imm hat).trans (runs_psh hat.tail hroom.lt)).trans
      (hbase.trans (runs_op hat.tail.tail.right hmul))).to ?_
    simp
    omega

theorem Computes.bin (hl : Computes lib insn l) (hr : Computes lib insn r) (op : BinOp)
    (hpos : ∀ b, 1 ≤ size (l.code b)) : Computes lib insn (.bin op l r) := by
  intro b a S d v d' hvalue hat hroom
  simp only [Exp.value, Option.bind_eq_bind, Option.bind_eq_some_iff, Prod.exists,
    Option.some.injEq, Prod.mk.injEq] at hvalue
  obtain ⟨x, d₁, hx, y, d₂, hy, v', hv, rfl, rfl⟩ := hvalue
  simp only [Exp.code] at hat hroom ⊢
  have hroom₁ : Room (b + size (l.code b) + 1) (x :: S) (size (r.code (b + size (l.code b) + 1))) :=
    hroom.psh x (hpos b) (by simp; omega)
  have hleft := hl b a S d x d₁ hx hat.left (hroom.mono (by simp))
  have hright := hr _ x (x :: S) d₁ y d₂ hy hat.right.tail.left hroom₁
  refine (((hleft.trans (runs_psh hat.right hroom.lt)).trans hright).trans
    (runs_bin hat.right.tail.right hroom₁.lt hv)).to ?_
  simp
  omega

/-- A branch over the code of `r`: taken or not, it ends right after that code. -/
theorem Computes.land (hl : Computes lib insn l) (hr : Computes lib insn r) :
    Computes lib insn (.land l r) := by
  intro b a S d v d' hvalue hat hroom
  simp only [Exp.value, Option.bind_eq_bind, Option.bind_eq_some_iff, Prod.exists] at hvalue
  obtain ⟨x, d₁, hx, hlast⟩ := hvalue
  simp only [Exp.code] at hat hroom ⊢
  have hsize : size (l.code b ++ insArg .bz (codePtr (b + size (l.code b) + 2 +
      size (r.code (b + size (l.code b) + 2)))) :: r.code (b + size (l.code b) + 2)) =
      size (l.code b) + 2 + size (r.code (b + size (l.code b) + 2)) := by
    simp
    omega
  rw [hsize] at hroom ⊢
  have hcode := hroom.code
  have hstack := hroom.stack
  have hleft := hl b a S d x d₁ hx hat.left (hroom.mono (by omega))
  have hbranch : Runs lib insn _ _ := runs_bz (a := x) (S := S) (d := d₁) hat.right
    (target_lt (by omega))
  by_cases h0 : x = 0
  · rw [if_pos h0] at hlast hbranch
    cases hlast
    exact (hleft.trans hbranch).to (by omega)
  · rw [if_neg h0] at hlast hbranch
    obtain ⟨⟨y, d₂⟩, hy, hpair⟩ := Option.map_eq_some_iff.mp hlast
    cases hpair
    have hright := hr _ x S d₁ y d₂ hy hat.right.tail ⟨by omega, by simp; omega⟩
    exact ((hleft.trans hbranch).trans hright).to (by simp; omega)

theorem Computes.lor (hl : Computes lib insn l) (hr : Computes lib insn r) :
    Computes lib insn (.lor l r) := by
  intro b a S d v d' hvalue hat hroom
  simp only [Exp.value, Option.bind_eq_bind, Option.bind_eq_some_iff, Prod.exists] at hvalue
  obtain ⟨x, d₁, hx, hlast⟩ := hvalue
  simp only [Exp.code] at hat hroom ⊢
  have hsize : size (l.code b ++ insArg .bnz (codePtr (b + size (l.code b) + 2 +
      size (r.code (b + size (l.code b) + 2)))) :: r.code (b + size (l.code b) + 2)) =
      size (l.code b) + 2 + size (r.code (b + size (l.code b) + 2)) := by
    simp
    omega
  rw [hsize] at hroom ⊢
  have hcode := hroom.code
  have hstack := hroom.stack
  have hleft := hl b a S d x d₁ hx hat.left (hroom.mono (by omega))
  have hbranch : Runs lib insn _ _ := runs_bnz (a := x) (S := S) (d := d₁) hat.right
    (target_lt (by omega))
  by_cases h0 : x = 0
  · rw [if_pos h0] at hlast hbranch
    obtain ⟨⟨y, d₂⟩, hy, hpair⟩ := Option.map_eq_some_iff.mp hlast
    cases hpair
    have hright := hr _ x S d₁ y d₂ hy hat.right.tail ⟨by omega, by simp; omega⟩
    exact ((hleft.trans hbranch).trans hright).to (by simp; omega)
  · rw [if_neg h0] at hlast hbranch
    cases hlast
    exact (hleft.trans hbranch).to (by omega)

theorem Computes.cond {c t f : Exp} (hc : Computes lib insn c) (ht : Computes lib insn t)
    (hf : Computes lib insn f) : Computes lib insn (.cond c t f) := by
  intro b a S d v d' hvalue hat hroom
  simp only [Exp.value, Option.bind_eq_bind, Option.bind_eq_some_iff, Prod.exists] at hvalue
  obtain ⟨x, d₁, hx, hlast⟩ := hvalue
  simp only [Exp.code] at hat hroom ⊢
  obtain ⟨tb, htb⟩ : ∃ tb, b + size (c.code b) + 2 = tb := ⟨_, rfl⟩
  rw [htb] at hat hroom ⊢
  obtain ⟨fb, hfb⟩ : ∃ fb, tb + size (t.code tb) + 2 = fb := ⟨_, rfl⟩
  rw [hfb] at hat hroom ⊢
  have hsize : size (c.code b ++ insArg .bz (codePtr fb) :: (t.code tb ++
      insArg .jmp (codePtr (fb + size (f.code fb))) :: f.code fb)) =
      size (c.code b) + 2 + size (t.code tb) + 2 + size (f.code fb) := by
    simp
    omega
  rw [hsize] at hroom ⊢
  have hcode := hroom.code
  have hstack := hroom.stack
  have htest := hc b a S d x d₁ hx hat.left (hroom.mono (by omega))
  have hbranch : Runs lib insn _ _ := runs_bz (a := x) (S := S) (d := d₁) hat.right
    (target_lt (by omega))
  have hat₁ := hat.right.tail.to (show b + size (c.code b) + 2 = tb from htb)
  by_cases h0 : x = 0
  · rw [if_pos h0] at hlast hbranch
    have hat₂ := hat₁.right.tail.to (show tb + size (t.code tb) + 2 = fb from hfb)
    have helse := hf fb x S d₁ v d' hlast hat₂ ⟨by omega, by omega⟩
    exact ((htest.trans hbranch).trans helse).to (by omega)
  · rw [if_neg h0, htb] at hbranch
    rw [if_neg h0] at hlast
    have hthen := ht tb x S d₁ v d' hlast hat₁.left ⟨by omega, by omega⟩
    have hjmp : Runs lib insn _ _ := runs_jmp (a := v) (S := S) (d := d') hat₁.right
      (target_lt (by omega))
    exact (((htest.trans hbranch).trans hthen).trans hjmp).to (by omega)

theorem Computes.assign (hl : Finds lib insn l) (hr : Computes lib insn r)
    (hpos : ∀ b, 1 ≤ size (l.addrCode b)) (hty : TypeOk l.type) :
    Computes lib insn (.assign l r) := by
  intro b a S d v d' hvalue hat hroom
  simp only [Exp.value, Option.bind_eq_bind, Option.bind_eq_some_iff, Prod.exists,
    Option.some.injEq, Prod.mk.injEq] at hvalue
  obtain ⟨p, d₁, hp, v', d₂, hv, d₃, hstore, rfl, rfl⟩ := hvalue
  simp only [Exp.code] at hat hroom ⊢
  have hroom₁ : Room (b + size (l.addrCode b) + 1) (p :: S)
      (size (r.code (b + size (l.addrCode b) + 1))) :=
    hroom.psh p (hpos b) (by simp; omega)
  have hleft := hl b a S d p d₁ hp hat.left (hroom.mono (by simp))
  have hright := hr _ p (p :: S) d₁ v' d₂ hv hat.right.tail.left hroom₁
  refine (((hleft.trans (runs_psh hat.right hroom.lt)).trans hright).trans
    (runs_si hat.right.tail.right (width_isWidth hty) hstore)).to ?_
  simp
  omega

theorem Computes.pre (he : Finds lib insn e) (inc : Bool) (hpos : ∀ b, 1 ≤ size (e.addrCode b))
    (hty : TypeOk e.type) : Computes lib insn (.pre inc e) := by
  intro b a S d v d' hvalue hat hroom
  simp only [Exp.value, Option.bind_eq_bind, Option.bind_eq_some_iff, Prod.exists,
    Option.some.injEq, Prod.mk.injEq] at hvalue
  obtain ⟨p, d₁, hp, v', hload, d₂, hstore, rfl, rfl⟩ := hvalue
  simp only [Exp.code] at hat hroom ⊢
  have hroom₁ : Room (b + size (e.addrCode b) + 1) (p :: S) 0 :=
    hroom.psh p (hpos b) (by simp)
  have hbase := he b a S d p d₁ hp hat.left (hroom.mono (by simp))
  refine (hbase.trans (runs_inc hat.right hty hroom₁.lt hload hstore)).to ?_
  simp [incCode]
  omega

theorem Computes.post (he : Finds lib insn e) (inc : Bool) (hpos : ∀ b, 1 ≤ size (e.addrCode b))
    (hty : TypeOk e.type) : Computes lib insn (.post inc e) := by
  intro b a S d v d' hvalue hat hroom
  simp only [Exp.value, Option.bind_eq_bind, Option.bind_eq_some_iff, Prod.exists,
    Option.some.injEq, Prod.mk.injEq] at hvalue
  obtain ⟨p, d₁, hp, v', hload, d₂, hstore, rfl, rfl⟩ := hvalue
  have hcode : (Exp.post inc e).code b = e.addrCode b ++
      ((ins .psh :: insArg .li (word (width e.type)) :: incCode inc e.type) ++
        undoCode inc e.type) := by
    simp [Exp.code]
  rw [hcode] at hat hroom ⊢
  have hroom₁ : Room (b + size (e.addrCode b) + 1) (p :: S) 0 :=
    hroom.psh p (hpos b) (by simp)
  have hbase := he b a S d p d₁ hp hat.left (hroom.mono (by simp))
  have hinc : Runs lib insn _ _ := runs_inc hat.right.left hty hroom₁.lt hload hstore
  have hundo : (if inc then Op.sub else Op.add).apply (v' + incDelta inc e.type)
      (word (incStep e.type)) = some v' := by
    rw [incStep_eq]
    cases inc with
    | true => exact congrArg some (add_sub_cancel_right v' _)
    | false => exact congrArg some (neg_add_cancel_right v' _)
  have hat₁ := hat.right.right
  refine ((hbase.trans hinc).trans (((runs_psh hat₁ hroom.lt).trans (runs_imm hat₁.tail)).trans
    (runs_op hat₁.tail.tail hundo))).to ?_
  simp [incCode, undoCode]
  omega

mutual

/-- The value of every expression that passes the checks is what its code computes. -/
theorem computes_of_checked : ∀ e : Exp, e.Declared → e.Checked → Computes lib insn e
  | .num v, _, _ => fun b a S d v' d' hvalue hat _ => by
    cases hvalue
    exact runs_imm hat
  | .negNum v, _, _ => fun b a S d v' d' hvalue hat _ => by
    cases hvalue
    exact runs_imm hat
  | .str v _, _, _ => fun b a S d v' d' hvalue hat _ => by
    cases hvalue
    exact runs_imm hat
  | .sizeof type n, _, _ => fun b a S d v' d' hvalue hat _ => by
    cases hvalue
    exact runs_imm hat
  | .var s, h, _ => computes_var lib insn h.1 h.2
  | .call s as, h, hc => Computes.call (pushes_of_checked as h.2 hc.2) (cls_library h.1)
  | .paren e, h, hc => computes_of_checked e h hc
  | .cast type n e, h, hc => (computes_of_checked e h.2 hc).cast type n
  | .un op e, h, hc => (computes_of_checked e h hc).un op
  | .index e i, h, hc => (computes_of_checked e h.1 hc.1).index (computes_of_checked i h.2 hc.2.1)
    (fun b => size_code_pos e b hc.1) ((typeOk_of_declared e h.1 hc.1).sub hc.2.2)
  | .deref e, h, hc => (computes_of_checked e h hc.1).deref ((typeOk_of_declared e h hc.1).sub hc.2)
  | .addr e, h, hc => finds_of_checked e h hc.1 hc.2
  | .pre inc e, h, hc => Computes.pre (finds_of_checked e h hc.1 hc.2) inc
    (fun b => size_addrCode_pos e b hc.1 hc.2) (typeOk_of_declared e h hc.1)
  | .post inc e, h, hc => Computes.post (finds_of_checked e h hc.1 hc.2) inc
    (fun b => size_addrCode_pos e b hc.1 hc.2) (typeOk_of_declared e h hc.1)
  | .bin op l r, h, hc => (computes_of_checked l h.1 hc.1).bin (computes_of_checked r h.2 hc.2) op
    fun b => size_code_pos l b hc.1
  | .land l r, h, hc => (computes_of_checked l h.1 hc.1).land (computes_of_checked r h.2 hc.2)
  | .lor l r, h, hc => (computes_of_checked l h.1 hc.1).lor (computes_of_checked r h.2 hc.2)
  | .cond c t f, h, hc => (computes_of_checked c h.1 hc.1).cond (computes_of_checked t h.2.1 hc.2.1)
    (computes_of_checked f h.2.2 hc.2.2)
  | .assign l r, h, hc => Computes.assign (finds_of_checked l h.1 hc.1 hc.2.2)
    (computes_of_checked r h.2 hc.2.1) (fun b => size_addrCode_pos l b hc.1 hc.2.2)
    (typeOk_of_declared l h.1 hc.1)

theorem finds_of_checked : ∀ e : Exp, e.Declared → e.Checked → e.isLvalue = true →
    Finds lib insn e
  | .var s, _, _, hl => fun b a S d p d' hspot hat _ => by
    have harr : s.isArray = false := by
      simp only [Exp.isLvalue, Bool.and_eq_true, Bool.not_eq_true'] at hl
      exact hl.2
    simp only [Exp.spot, harr, Bool.false_eq_true, if_false] at hspot
    cases hspot
    exact runs_imm hat
  | .deref e, h, hc, _ => computes_of_checked e h hc.1
  | .index e i, h, hc, _ => Finds.index (computes_of_checked e h.1 hc.1)
    (computes_of_checked i h.2 hc.2.1) fun b => size_code_pos e b hc.1
  | .paren e, h, hc, hl => finds_of_checked e h hc hl

theorem pushes_of_checked : ∀ as : Args, as.Declared → as.Checked → Pushes lib insn as
  | .nil, _, _ => pushes_nil lib insn
  | .cons e comma rest, h, hc => Pushes.cons (computes_of_checked e h.1 hc.1)
    (pushes_of_checked rest h.2 hc.2) (fun b => size_code_pos e b hc.1) comma

end

theorem callValue_net {s : Symbol} {x v : Long} (h : netApply s x = some v) (d : Data) :
    callValue lib s [x] d = some v := by
  unfold netApply at h
  unfold callValue
  split at h
  · rename_i hs
    rw [hs, ofWord_word]
    exact h
  · split at h
    · rename_i hs
      rw [hs, ofWord_word]
      exact h
    · cases h

mutual

/-- Where `Exp.eval` has a value it is this one. -/
theorem value_of_eval : ∀ (e : Exp) (d : Data) (r : Long × Data), e.eval d = some r →
    e.value lib asRun d = some r
  | .num _, _, _, h | .negNum _, _, _, h | .sizeof .., _, _, h | .var _, _, _, h => h
  | .str .., _, _, h => nomatch h
  | .call s (.cons e false .nil), d, r, h => by
    simp only [Exp.eval, Option.bind_eq_bind, Option.bind_eq_some_iff, Prod.exists,
      Option.some.injEq] at h
    obtain ⟨x, d₁, hx, v, hv, rfl⟩ := h
    have hx' := value_of_eval e d _ hx
    simp [hx', callValue_net hv]
  | .call _ .nil, _, _, h => nomatch h
  | .call _ (.cons _ true _), _, _, h => nomatch h
  | .call _ (.cons _ false (.cons ..)), _, _, h => nomatch h
  | .paren e, d, r, h => value_of_eval e d r h
  | .cast _ _ e, d, r, h => by
    have he := value_of_eval e d r h
    simp [he]
  | .un op e, d, r, h => by
    obtain ⟨x, hx, rfl⟩ := Option.map_eq_some_iff.mp h
    have he := value_of_eval e d x hx
    simp [he]
  | .index e i, d, r, h => by
    simp only [Exp.eval, Option.bind_eq_bind, Option.bind_eq_some_iff, Prod.exists,
      Option.some.injEq] at h
    obtain ⟨p, d₁, hp, n, d₂, hn, v, hv, rfl⟩ := h
    have hp' := value_of_eval e d _ hp
    have hn' := value_of_eval i d₁ _ hn
    simp [hp', hn', hv]
  | .deref e, d, r, h => by
    simp only [Exp.eval, Option.bind_eq_bind, Option.bind_eq_some_iff, Prod.exists,
      Option.some.injEq] at h
    obtain ⟨p, d₁, hp, v, hv, rfl⟩ := h
    have hp' := value_of_eval e d _ hp
    simp [hp', hv]
  | .addr e, d, r, h => spot_of_place e d r h
  | .pre inc e, d, r, h => by
    simp only [Exp.eval, Option.bind_eq_bind, Option.bind_eq_some_iff, Prod.exists,
      Option.some.injEq] at h
    obtain ⟨p, d₁, hp, v, hv, d₂, hd, rfl⟩ := h
    have hp' := spot_of_place e d _ hp
    simp [hp', hv, hd]
  | .post inc e, d, r, h => by
    simp only [Exp.eval, Option.bind_eq_bind, Option.bind_eq_some_iff, Prod.exists,
      Option.some.injEq] at h
    obtain ⟨p, d₁, hp, v, hv, d₂, hd, rfl⟩ := h
    have hp' := spot_of_place e d _ hp
    simp [hp', hv, hd]
  | .bin op l r, d, _, h => by
    simp only [Exp.eval, Option.bind_eq_bind, Option.bind_eq_some_iff, Prod.exists,
      Option.some.injEq] at h
    obtain ⟨x, d₁, hx, y, d₂, hy, v, hv, rfl⟩ := h
    have hx' := value_of_eval l d _ hx
    have hy' := value_of_eval r d₁ _ hy
    simp [hx', hy', hv]
  | .land l r, d, res, h => by
    simp only [Exp.eval, Option.bind_eq_bind, Option.bind_eq_some_iff, Prod.exists] at h
    obtain ⟨x, d₁, hx, hlast⟩ := h
    have hx' := value_of_eval l d _ hx
    simp only [Exp.value, hx', Option.bind_eq_bind, Option.bind_some, asRun_logic]
    by_cases h0 : x = 0
    · rwa [if_pos h0] at hlast ⊢
    · rw [if_neg h0] at hlast ⊢
      rw [value_of_eval r d₁ _ hlast, Option.map_some]
  | .lor l r, d, res, h => by
    simp only [Exp.eval, Option.bind_eq_bind, Option.bind_eq_some_iff, Prod.exists] at h
    obtain ⟨x, d₁, hx, hlast⟩ := h
    have hx' := value_of_eval l d _ hx
    simp only [Exp.value, hx', Option.bind_eq_bind, Option.bind_some, asRun_logic]
    by_cases h0 : x = 0
    · rw [if_pos h0] at hlast ⊢
      rw [value_of_eval r d₁ _ hlast, Option.map_some]
    · rwa [if_neg h0] at hlast ⊢
  | .cond c t f, d, res, h => by
    simp only [Exp.eval, Option.bind_eq_bind, Option.bind_eq_some_iff, Prod.exists] at h
    obtain ⟨x, d₁, hx, hlast⟩ := h
    have hx' := value_of_eval c d _ hx
    simp only [Exp.value, hx', Option.bind_eq_bind, Option.bind_some]
    by_cases h0 : x = 0
    · rw [if_pos h0] at hlast ⊢
      exact value_of_eval f d₁ _ hlast
    · rw [if_neg h0] at hlast ⊢
      exact value_of_eval t d₁ _ hlast
  | .assign l r, d, _, h => by
    simp only [Exp.eval, Option.bind_eq_bind, Option.bind_eq_some_iff, Prod.exists,
      Option.some.injEq] at h
    obtain ⟨p, d₁, hp, v, d₂, hv, d₃, hd, rfl⟩ := h
    have hp' := spot_of_place l d _ hp
    have hv' := value_of_eval r d₁ _ hv
    simp [hp', hv', hd]

theorem spot_of_place : ∀ (e : Exp) (d : Data) (r : Long × Data), e.place d = some r →
    e.spot lib asRun d = some r
  | .var _, _, _, h => h
  | .deref e, d, r, h => value_of_eval e d r h
  | .index e i, d, r, h => by
    simp only [Exp.place, Option.bind_eq_bind, Option.bind_eq_some_iff, Prod.exists,
      Option.some.injEq] at h
    obtain ⟨p, d₁, hp, n, d₂, hn, rfl⟩ := h
    have hp' := value_of_eval e d _ hp
    have hn' := value_of_eval i d₁ _ hn
    simp [hp', hn']
  | .paren e, d, r, h => spot_of_place e d r h

end

end Evaluate

section Program

/-- The code of expressions between commas. -/
def allCode : Exp → List Exp → Nat → List Ins
  | e, [], b => e.code b
  | e, e' :: es, b => e.code b ++ allCode e' es (b + size (e.code b))

/-- `expr` reads an expression of the grammar and emits its code. -/
theorem expr_grammar {e : Exp} (h : e.Grammar) (rest : List Token) (hrest : Follows 14 rest)
    (c : Buf) (ty : Nat) :
    expr (3 * (e.toks ++ rest).length + 3) .assign ⟨e.toks ++ rest, c, ty⟩ =
      .ok ⟨rest, ⟨c.code ++ words (e.code c.code.length), e.above c.above⟩, e.type⟩ := by
  apply ok_of_toOption
  have hread := (reads_of_grammar e h).full (t := .assign) (by decide)
    (entry_anti (by decide : 14 ≤ 14) e.level_le) (hrest.mono (by decide) e.level_le) hrest.1
    (Nat.le_refl _)
  rw [(twoPass _).expr, hread, emitted_some, generates_of_checked e (checked_of_grammar e h)]
  rfl

theorem exprs_grammar (e : Exp) (es : List Exp) (h : ∀ x ∈ e :: es, x.Grammar) (c : Buf)
    (ty fuel : Nat) (hf : es.length < fuel) :
    ∃ s, exprs fuel ⟨commaToks e es, c, ty⟩ = .ok s ∧
      s.code = c.code ++ words (allCode e es c.code.length) := by
  induction es generalizing e c ty fuel with
  | nil =>
    obtain ⟨f, rfl⟩ : ∃ f, fuel = f + 1 := ⟨fuel - 1, by omega⟩
    have hexpr := expr_grammar (h e (List.mem_cons_self ..)) [] ⟨by decide, rfl⟩ c ty
    rw [List.append_nil] at hexpr
    refine ⟨⟨[], ⟨c.code ++ words (e.code c.code.length), e.above c.above⟩, e.type⟩, ?_, rfl⟩
    simp only [exprs, commaToks, hexpr]
    rfl
  | cons e' es ih =>
    obtain ⟨f, rfl⟩ : ∃ f, fuel = f + 1 := ⟨fuel - 1, by omega⟩
    have hexpr := expr_grammar (h e (List.mem_cons_self ..)) (.comma :: commaToks e' es)
      ⟨(by decide : Token.comma.rank < stop 14), rfl⟩ c ty
    obtain ⟨s, hs, hcode⟩ := ih e' (fun x hx => h x (List.mem_cons_of_mem _ hx))
      ⟨c.code ++ words (e.code c.code.length), e.above c.above⟩ e.type f (by
        rw [List.length_cons] at hf
        omega)
    refine ⟨s, ?_, ?_⟩
    · simp only [exprs, commaToks, hexpr]
      exact hs
    · rw [hcode, allCode]
      simp

theorem emit_code (s : St) (ws : List Long) : (s.emit ws).code = s.code ++ ws := rfl

theorem valueAll_of_evalAll {lib : Library} (e : Exp) (es : List Exp) (d : Data) (r : Long × Data)
    (h : evalAll e es d = some r) : valueAll lib asRun e es d = some r := by
  induction es generalizing e d with
  | nil => exact value_of_eval e d r h
  | cons e' es ih =>
    simp only [evalAll, Option.bind_eq_bind, Option.bind_eq_some_iff, Prod.exists] at h
    obtain ⟨x, d₁, hx, hrest⟩ := h
    simp only [valueAll, value_of_eval e d _ hx, Option.bind_eq_bind, Option.bind_some]
    exact ih e' d₁ hrest

theorem runs_allCode {lib : Library} {insn : List Long} (e : Exp) (es : List Exp)
    (hd : ∀ x ∈ e :: es, x.Declared) (hc : ∀ x ∈ e :: es, x.Checked) {b : Nat} {a v : Long}
    {d d' : Data} (hvalue : valueAll lib asRun e es d = some (v, d'))
    (hat : CodeAt insn b (allCode e es b)) (hroom : Room b [] (size (allCode e es b))) :
    Runs lib insn ⟨b, a, [], d⟩ ⟨b + size (allCode e es b), v, [], d'⟩ := by
  have hfirst : Computes lib insn e := computes_of_checked e (hd e (List.mem_cons_self ..))
    (hc e (List.mem_cons_self ..))
  induction es generalizing e b a d with
  | nil => exact hfirst b a [] d v d' hvalue hat hroom
  | cons e' es ih =>
    simp only [valueAll, Option.bind_eq_bind, Option.bind_eq_some_iff, Prod.exists] at hvalue
    obtain ⟨x, d₁, hx, hrest⟩ := hvalue
    simp only [allCode] at hat hroom ⊢
    have hone : Runs lib insn _ _ := hfirst b a [] d x d₁ hx hat.left (hroom.mono (by simp))
    obtain ⟨hstack, hcode⟩ := hroom
    rw [size_append] at hcode ⊢
    have hothers := ih e' (fun y hy => hd y (List.mem_cons_of_mem _ hy))
      (fun y hy => hc y (List.mem_cons_of_mem _ hy)) (a := x) hrest hat.right
      ⟨by omega, by omega⟩
      (computes_of_checked e' (hd e' (by simp)) (hc e' (by simp)))
    exact (hone.trans hothers).to (by omega)

/-- A program made of the code of some expressions returns the value of the last. -/
theorem exprRun_allCode {lib : Library} (e : Exp) (es : List Exp)
    (hd : ∀ x ∈ e :: es, x.Declared) (hc : ∀ x ∈ e :: es, x.Checked) {insn : List Long}
    (hinsn : insn = 0 :: words (allCode e es 1 ++ [ins .exit])) (hlen : insn.length ≤ 1024)
    {d d' : Data} {v : Long} (hvalue : valueAll lib asRun e es d = some (v, d')) :
    ∃ n, ∀ fuel ≥ n, exprRun lib insn fuel d = some (d', some v) := by
  have hat : CodeAt insn 1 (allCode e es 1 ++ [ins .exit]) := ⟨[0], [], by simp [hinsn], rfl⟩
  have hroom : Room 1 [] (size (allCode e es 1)) := by
    refine ⟨Nat.le_refl 1, ?_⟩
    rw [hinsn] at hlen
    simp at hlen
    omega
  have hruns : Runs lib insn _ _ := runs_allCode (a := 0) e es hd hc hvalue hat.left hroom
  have hexit : step lib insn ⟨1 + size (allCode e es 1), v, [], d'⟩ =
      .done ⟨1 + size (allCode e es 1), v, [], d'⟩ (some v) := by
    simp [step, hat.right.op, ins, ofWord_word]
  obtain ⟨n, hn⟩ := Visits.iterate hruns (iterate_done hexit 0)
  refine ⟨n, fun fuel hf => ?_⟩
  rw [exprRun, iterate_mono hn hf]
  rfl

/-- `expr_compile` accepts every list of expressions of the grammar, and if its code fits the
buffer, `expr_run` returns the value of the last and leaves the buffer as their evaluation does. -/
theorem compile_run_correct (held : List (List Char × Symbol)) (data str : Long)
    (text : List Char) (declare : List GlobalVarDeclare) (tab : Symtab)
    (htab : symtab held data declare = some tab) (e : Exp) (es : List Exp)
    (htoks : tokens tab str (text.length + 1) ⟨text, 0, 0⟩ = commaToks e es)
    (hg : ∀ x ∈ e :: es, x.Grammar) :
    ∃ prog, exprCompile held data str text declare = .ok prog ∧
      (prog.insn.length ≤ 1024 → ∀ (lib : Library) (d : Data) (v : Long) (d' : Data),
        evalAll e es d = some (v, d') →
        ∃ n, ∀ fuel ≥ n, exprRun lib prog.insn fuel d = some (d', some v)) := by
  obtain ⟨s, hs, hcode⟩ := exprs_grammar e es hg ⟨[0], []⟩ 0 ((commaToks e es).length + 1)
    (Nat.lt_succ_of_le (length_commaToks e es))
  refine ⟨⟨(s.emit [Op.exit.word]).code, datasize declare⟩, ?_, ?_⟩
  · simp only [exprCompile, htab, htoks, hs]
    rfl
  · intro hlen lib d v d' heval
    exact exprRun_allCode e es (fun x hx => declared_of_grammar x (hg x hx))
      (fun x hx => checked_of_grammar x (hg x hx)) (by
        rw [emit_code, hcode]
        simp) hlen
      (valueAll_of_evalAll e es d (v, d') heval)

/-- An `int a` at the start of the buffer. -/
def intA : GlobalVarDeclare := ⟨['a'], 0, 4, 4⟩

def symA : Symbol := ⟨.glo, tyInt, 4096, true⟩

/-- `a = a + 2 * 3` -/
def setA : Exp :=
  .assign (.var symA) (.bin .add (.var symA) (.bin .mul (.num 2) (.num 3)))

theorem compile_run_correct_set :
    ∃ prog, exprCompile [] 4096 8192 "a = a + 2 * 3, -a".toList [intA] = .ok prog ∧
      (prog.insn.length ≤ 1024 → ∃ n, ∀ fuel ≥ n,
        exprRun (fun _ _ _ => 0) prog.insn fuel ⟨4096, [4, 0, 0, 0]⟩ =
          some (⟨4096, [10, 0, 0, 0]⟩, some (-10))) := by
  obtain ⟨prog, hprog, hrun⟩ := compile_run_correct [] 4096 8192 "a = a + 2 * 3, -a".toList [intA]
    ((['a'], .id symA) :: builtins) (by decide +kernel) setA [.un .minus (.var symA)]
    (by decide +kernel) (by
      simp only [List.mem_cons, List.not_mem_nil, or_false, forall_eq_or_imp, forall_eq]
      simp [setA, symA, Exp.Grammar, Exp.level, Exp.isLvalue, Exp.isNum, Exp.type, BinOp.level,
        Symbol.isArray, tyInt, ptr, array])
  refine ⟨prog, hprog, fun hlen => hrun hlen _ _ _ _ ?_⟩
  decide +kernel

end Program

end PerfProf.Expr
