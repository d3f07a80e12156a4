import PerfProf.ExprExec

/-! The depth of the stack at every instruction of an expression's code: what each needs of it, and
that the code has it wherever it stands. -/
namespace PerfProf.Expr

section Opcodes

/-- The words of an instruction: those up to `SI` are followed by an operand. -/
def Op.size (op : Op) : Nat := if op.ctorIdx ≤ Op.si.ctorIdx then 2 else 1

def Op.isBinary (op : Op) : Bool := decide (Op.or.ctorIdx ≤ op.ctorIdx ∧ op.ctorIdx ≤ Op.mod.ctorIdx)

def Op.isCall (op : Op) : Bool := decide (Op.prtf.ctorIdx ≤ op.ctorIdx ∧ op ≠ .exit)

def Op.isJump (op : Op) : Bool := op == .jmp || op == .bz || op == .bnz

/-- How many words an instruction takes from the stack. -/
def Op.pops (op : Op) (n : Long) : Nat :=
  if op = .adj then n.toNat else if op = .si ∨ op.isBinary = true then 1 else 0

def Op.pushes (op : Op) : Nat := if op = .psh then 1 else 0

/-- Right before `pc` the arguments `as` have been evaluated and pushed. -/
def ArgsBefore (insn : List Long) (pc n : Nat) : Prop :=
  ∃ as b, CodeAt insn b (Args.code as b) ∧ b + size (as.code b) = pc ∧ as.count = n

end Opcodes

section Depth
variable {b d : Nat} {is js : List Ins}

/-- The depth of the stack after an instruction. -/
def Ins.after (i : Ins) (d : Nat) : Nat :=
  match Op.ofWord i.op with
  | some op => d + op.pushes - op.pops (i.arg.getD 0)
  | none => d

def depthAfter : Nat → List Ins → Nat
  | d, [] => d
  | d, i :: is => depthAfter (i.after d) is

@[simp]
theorem depthAfter_nil : depthAfter d [] = d := rfl

@[simp]
theorem depthAfter_cons (i : Ins) : depthAfter d (i :: is) = depthAfter (i.after d) is := rfl

@[simp]
theorem depthAfter_append : depthAfter d (is ++ js) = depthAfter (depthAfter d is) js := by
  induction is generalizing d with
  | nil => rfl
  | cons i is ih => exact ih

theorem after_ins (op : Op) : (ins op).after d = d + op.pushes - op.pops 0 := by
  rw [ins, Ins.after, ofWord_word]
  rfl

theorem after_insArg (op : Op) (n : Long) :
    (insArg op n).after d = d + op.pushes - op.pops n := by
  rw [insArg, Ins.after, ofWord_word]
  rfl

@[simp]
theorem after_psh : (ins .psh).after d = d + 1 := after_ins .psh

/-- Instructions that neither push nor pop. -/
theorem after_insArg_same {op : Op} (h : ∀ n, op.pops n = 0) (h' : op.pushes = 0) (n : Long) :
    (insArg op n).after d = d := by
  rw [after_insArg, h, h']
  rfl

@[simp]
theorem after_imm (n : Long) : (insArg .imm n).after d = d :=
  after_insArg_same (fun _ => rfl) rfl n

@[simp]
theorem after_li (n : Long) : (insArg .li n).after d = d :=
  after_insArg_same (fun _ => rfl) rfl n

@[simp]
theorem after_si (n : Long) : (insArg .si n).after d = d - 1 := after_insArg .si n

@[simp]
theorem after_adj (n : Long) : (insArg .adj n).after d = d - n.toNat := after_insArg .adj n

theorem after_jump {op : Op} (h : op.isJump = true) (n : Long) : (insArg op n).after d = d := by
  rw [after_insArg]
  cases op <;> first
    | rfl
    | cases h

theorem after_binary {op : Op} (h : op.isBinary = true) : (ins op).after (d + 1) = d := by
  rw [after_ins]
  cases op <;> first
    | rfl
    | cases h

theorem library_op {s : Symbol} (h : s ∈ library) :
    ∃ op : Op, op.isCall = true ∧ s.value = op.word := by
  simp only [library, List.mem_cons, List.not_mem_nil, or_false] at h
  rcases h with rfl | rfl | rfl | rfl | rfl
  · exact ⟨.prtf, rfl, rfl⟩
  · exact ⟨.ksym, rfl, rfl⟩
  · exact ⟨.nthl, rfl, rfl⟩
  · exact ⟨.nths, rfl, rfl⟩
  · exact ⟨.strncmp, rfl, rfl⟩

theorem after_call {op : Op} (h : op.isCall = true) : (ins op).after d = d := by
  rw [after_ins]
  cases op <;> first
    | rfl
    | cases h

theorem after_bare {op : Op} (h : op.isCall = true) : (⟨op.word, none⟩ : Ins).after d = d :=
  after_call h

theorem count_le_size : ∀ (as : Args) (b : Nat), as.Checked → 2 * as.count ≤ size (as.code b)
  | .nil, _, _ => Nat.zero_le _
  | .cons e _ rest, b, hc => by
    have hpos := size_code_pos e b hc.1
    have hrest := count_le_size rest (b + size (e.code b) + 1) hc.2
    simp only [Args.count, Args.code, size_append, size_cons, words_ins, List.length_singleton]
    omega

theorem toNat_small {n : Nat} (h : n ≤ 1024) : (word n).toNat = n :=
  toNat_word (Nat.lt_of_le_of_lt h (by decide))

theorem isBinary_op (op : BinOp) : op.op.isBinary = true := by
  cases op <;> rfl

theorem isBinary_inc (inc : Bool) :
    (if inc then Op.add else Op.sub).isBinary = true ∧
      (if inc then Op.sub else Op.add).isBinary = true := by
  cases inc <;> exact ⟨rfl, rfl⟩

theorem depth_scaleCode (t : Nat) : depthAfter d (scaleCode t) = d := by
  unfold scaleCode
  split
  · simp [after_binary (rfl : Op.mul.isBinary = true)]
  · rfl

theorem depth_binCode (op : BinOp) (tl tr : Nat) : depthAfter (d + 1) (op.code tl tr) = d := by
  have hop := isBinary_op op
  cases op with
  | add => simp [BinOp.code, depth_scaleCode, after_binary (rfl : Op.add.isBinary = true)]
  | sub =>
    simp only [BinOp.code]
    split
    · simp [after_binary (rfl : Op.sub.isBinary = true), after_binary (rfl : Op.div.isBinary = true)]
    · simp [depth_scaleCode, after_binary (rfl : Op.sub.isBinary = true)]
  | _ => exact after_binary hop

theorem depth_incCode (inc : Bool) (ty : Nat) : depthAfter (d + 1) (incCode inc ty) = d := by
  simp [incCode, after_binary (isBinary_inc inc).1]

theorem depth_undoCode (inc : Bool) (ty : Nat) : depthAfter d (undoCode inc ty) = d := by
  simp [undoCode, after_binary (isBinary_inc inc).2]

mutual

/-- The code of a value leaves the depth of the stack as it was. -/
theorem depth_code : ∀ (e : Exp) (b d : Nat), e.Declared → e.Checked → size (e.code b) ≤ 1024 →
    depthAfter d (e.code b) = d
  | .num _, b, d, _, _, _ | .negNum _, b, d, _, _, _ | .str .., b, d, _, _, _
  | .sizeof .., b, d, _, _, _ => by simp [Exp.code]
  | .var s, b, d, h, _, _ => by
    rw [code_var h.1]
    split <;> simp
  | .call s as, b, d, h, hc, hsize => by
    obtain ⟨op, hop, hs⟩ := library_op h.1
    rw [code_call (cls_library h.1)] at hsize ⊢
    rw [size_append] at hsize
    have hargs := depth_args as b d h.2 hc.2 (by omega)
    have hcount := count_le_size as b hc.2
    have hnat := @toNat_small as.count (by omega)
    simp only [depthAfter_append, hargs, depthAfter_cons, hs, after_bare hop]
    split
    · simp [hnat]
    · rename_i h0
      simp [not_not.mp h0]
  | .paren e, b, d, h, hc, hsize => depth_code e b d h hc hsize
  | .cast _ _ e, b, d, h, hc, hsize => depth_code e b d h.2 hc hsize
  | .deref e, b, d, h, hc, hsize => by
    simp [Exp.code] at hsize
    simp [Exp.code, depth_code e b d h hc.1 (by omega)]
  | .addr e, b, d, h, hc, hsize => depth_addrCode e b d h hc.1 hc.2 hsize
  | .un op e, b, d, h, hc, hsize => by
    cases op with
    | plus => exact depth_code e b d h hc hsize
    | minus =>
      simp [Exp.code] at hsize
      simp [Exp.code, depth_code e (b + 3) (d + 1) h hc (by omega),
        after_binary (rfl : Op.mul.isBinary = true)]
    | not =>
      simp [Exp.code] at hsize
      simp [Exp.code, depth_code e b d h hc (by omega), after_binary (rfl : Op.eq.isBinary = true)]
    | compl =>
      simp [Exp.code] at hsize
      simp [Exp.code, depth_code e b d h hc (by omega), after_binary (rfl : Op.xor.isBinary = true)]
  | .index e i, b, d, h, hc, hsize => by
    have haddr := depth_addrCode (.index e i) b d h hc rfl
    rw [code_lvalue (.index e i) b rfl, size_append] at hsize
    rw [code_lvalue (.index e i) b rfl, depthAfter_append, haddr (by omega)]
    simp
  | .post inc e, b, d, h, hc, hsize => by
    simp [Exp.code] at hsize
    simp [Exp.code, depth_addrCode e b d h hc.1 hc.2 (by omega), depth_incCode, depth_undoCode]
  | .pre inc e, b, d, h, hc, hsize => by
    simp [Exp.code] at hsize
    simp [Exp.code, depth_addrCode e b d h hc.1 hc.2 (by omega), depth_incCode]
  | .bin op l r, b, d, h, hc, hsize => by
    simp [Exp.code] at hsize
    simp [Exp.code, depth_code l b d h.1 hc.1 (by omega),
      depth_code r (b + size (l.code b) + 1) (d + 1) h.2 hc.2 (by omega), depth_binCode]
  | .land l r, b, d, h, hc, hsize => by
    simp [Exp.code] at hsize
    simp [Exp.code, depth_code l b d h.1 hc.1 (by omega),
      depth_code r (b + size (l.code b) + 2) d h.2 hc.2 (by omega),
      after_jump (rfl : Op.bz.isJump = true)]
  | .lor l r, b, d, h, hc, hsize => by
    simp [Exp.code] at hsize
    simp [Exp.code, depth_code l b d h.1 hc.1 (by omega),
      depth_code r (b + size (l.code b) + 2) d h.2 hc.2 (by omega),
      after_jump (rfl : Op.bnz.isJump = true)]
  | .cond c t f, b, d, h, hc, hsize => by
    simp [Exp.code] at hsize
    have htest := depth_code c b d h.1 hc.1 (by omega)
    have hthen := depth_code t (b + size (c.code b) + 2) d h.2.1 hc.2.1 (by omega)
    have helse := depth_code f (b + size (c.code b) + 2 + size (t.code (b + size (c.code b) + 2)) + 2)
      d h.2.2 hc.2.2 (by omega)
    simp [Exp.code, htest, hthen, helse, after_jump (rfl : Op.bz.isJump = true),
      after_jump (rfl : Op.jmp.isJump = true)]
  | .assign l r, b, d, h, hc, hsize => by
    simp [Exp.code] at hsize
    simp [Exp.code, depth_addrCode l b d h.1 hc.1 hc.2.2 (by omega),
      depth_code r (b + size (l.addrCode b) + 1) (d + 1) h.2 hc.2.1 (by omega)]
termination_by e => (sizeOf e, 1)

theorem depth_addrCode : ∀ (e : Exp) (b d : Nat), e.Declared → e.Checked → e.isLvalue = true →
    size (e.addrCode b) ≤ 1024 → depthAfter d (e.addrCode b) = d
  | .var _, b, d, _, _, _, _ => by simp [Exp.addrCode]
  | .deref e, b, d, h, hc, _, hsize => depth_code e b d h hc.1 hsize
  | .index e i, b, d, h, hc, _, hsize => by
    simp [Exp.addrCode] at hsize
    simp [Exp.addrCode, depth_code e b d h.1 hc.1 (by omega),
      depth_code i (b + size (e.code b) + 1) (d + 1) h.2 hc.2.1 (by omega), depth_scaleCode,
      after_binary (rfl : Op.add.isBinary = true)]
  | .paren e, b, d, h, hc, hl, hsize => depth_addrCode e b d h hc hl hsize
termination_by e => (sizeOf e, 0)

theorem depth_args : ∀ (as : Args) (b d : Nat), as.Declared → as.Checked →
    size (as.code b) ≤ 1024 → depthAfter d (as.code b) = d + as.count
  | .nil, b, d, _, _, _ => rfl
  | .cons e _ rest, b, d, h, hc, hsize => by
    simp [Args.code] at hsize
    simp [Args.code, Args.count, depth_code e b d h.1 hc.1 (by omega),
      depth_args rest (b + size (e.code b) + 1) (d + 1) h.2 hc.2 (by omega)]
    omega
termination_by as => (sizeOf as, 0)

end

end Depth

section Typed
variable {insn : List Long} {T : Nat → Nat → Prop} {b d d' : Nat} {is js : List Ins}

/-- What an instruction at `b` needs, with `d` words on the stack; `T` marks where instructions
start, with their depths. -/
inductive Fits (insn : List Long) (T : Nat → Nat → Prop) (b d : Nat) : Ins → Prop where
  | imm (n : Long) : Fits insn T b d (insArg .imm n)
  | jump {op : Op} {n : Long} (h : op.isJump = true) (ht : T (codeIndex n) d) :
    Fits insn T b d (insArg op n)
  | adj {n : Long} (hn : n.toNat ≤ d) (hargs : ∀ p, b = p + 1 → ArgsBefore insn p n.toNat) :
    Fits insn T b d (insArg .adj n)
  | li {n : Long} (hn : isSize n = true) : Fits insn T b d (insArg .li n)
  | si {n : Long} (hn : isSize n = true) (hd : 1 ≤ d) : Fits insn T b d (insArg .si n)
  | psh : Fits insn T b d (ins .psh)
  | binary {op : Op} (h : op.isBinary = true) (hd : 1 ≤ d) : Fits insn T b d (ins op)
  | call {op : Op} {n : Nat} (h : op.isCall = true) (hn : n ≤ d) (hargs : ArgsBefore insn b n)
    (hadj : n ≠ 0 → insn[b + 1]? = some Op.adj.word ∧ insn[b + 2]? = some (word n)) :
    Fits insn T b d (ins op)

/-- The instructions from `b` on fit, and each word on the stack has two words of code below. -/
inductive Typed (insn : List Long) (T : Nat → Nat → Prop) : Nat → Nat → List Ins → Prop where
  | nil {b d : Nat} : Typed insn T b d []
  | cons {b d : Nat} {i : Ins} {is : List Ins} (hb : 2 * d + 1 ≤ b) (hi : Fits insn T b d i)
    (h : Typed insn T (b + i.words.length) (i.after d) is) : Typed insn T b d (i :: is)

theorem Typed.append {k : Nat} (h : Typed insn T b d is) (hd : depthAfter d is = k)
    (h' : Typed insn T (b + size is) k js) : Typed insn T b d (is ++ js) := by
  induction h with
  | nil =>
    rw [depthAfter_nil] at hd
    rw [hd]
    exact h'
  | cons hb hi _ ih =>
    rw [size_cons, ← Nat.add_assoc] at h'
    exact .cons hb hi (ih hd h')

/-- Where the code of a part of the program stands. -/
structure Placed (insn : List Long) (T : Nat → Nat → Prop) (b d : Nat) (is : List Ins) : Prop where
  code : CodeAt insn b is
  marks : ∀ front back, is = front ++ back → T (b + size front) (depthAfter d front)
  stack : 2 * d + 1 ≤ b
  room : b + size is ≤ 1024

theorem Placed.left (h : Placed insn T b d (is ++ js)) : Placed insn T b d is := by
  refine ⟨h.code.left, ?_, h.stack, ?_⟩
  · intro front back hsplit
    exact h.marks front (back ++ js) (by rw [hsplit, List.append_assoc])
  · have := h.room
    rw [size_append] at this
    omega

theorem Placed.right (h : Placed insn T b d (is ++ js)) (hd : depthAfter d is = d')
    (hb : 2 * d' + 1 ≤ b + size is) : Placed insn T (b + size is) d' js := by
  refine ⟨h.code.right, ?_, hb, ?_⟩
  · intro front back hsplit
    have hmark := h.marks (is ++ front) back (by rw [hsplit, List.append_assoc])
    rwa [size_append, depthAfter_append, hd, ← Nat.add_assoc] at hmark
  · have := h.room
    rw [size_append] at this
    omega

theorem Placed.tail {i : Ins} {k : Nat} (h : Placed insn T b d (i :: is)) (hd : i.after d = k)
    (hb : 2 * k + 1 ≤ b + i.words.length) : Placed insn T (b + i.words.length) k is := by
  have hright := Placed.right (show Placed insn T b d ([i] ++ is) from h) hd (by simpa using hb)
  simpa using hright

/-- The end of the code is marked as well. -/
theorem Placed.last (h : Placed insn T b d is) (hd : depthAfter d is = d) : T (b + size is) d := by
  have hmark := h.marks is [] (List.append_nil is).symm
  rwa [hd] at hmark

/-- An operator with a constant on its right. -/
theorem typed_const {op : Op} (hop : op.isBinary = true) (k : Long) (hb : 2 * d + 2 ≤ b) :
    Typed insn T b d [ins .psh, insArg .imm k, ins op] := by
  refine .cons (by omega) .psh (.cons ?_ (.imm k) (.cons ?_ (.binary hop ?_) .nil))
  · simp
    omega
  · simp
    omega
  · simp

theorem typed_scaleCode (t : Nat) (hb : 2 * d + 2 ≤ b) : Typed insn T b d (scaleCode t) := by
  unfold scaleCode
  split
  · exact typed_const rfl _ hb
  · exact .nil

theorem typed_scaled {op : Op} (hop : op.isBinary = true) (t : Nat) (hb : 2 * d + 4 ≤ b) :
    Typed insn T b (d + 1) (scaleCode t ++ [ins op]) :=
  (typed_scaleCode t (by omega)).append (depth_scaleCode t)
    (.cons (by omega) (.binary hop (by omega)) .nil)

theorem typed_binCode (op : BinOp) (tl tr : Nat) (hb : 2 * d + 4 ≤ b) :
    Typed insn T b (d + 1) (op.code tl tr) := by
  have hop := isBinary_op op
  cases op with
  | add => exact typed_scaled rfl tl hb
  | sub =>
    simp only [BinOp.code]
    split
    · refine .cons (by omega) (.binary rfl (by omega)) ?_
      rw [after_binary rfl]
      exact typed_const rfl _ (by simp; omega)
    · exact typed_scaled rfl tl hb
  | _ => exact .cons (by omega) (.binary hop (by omega)) .nil

theorem typed_incCode (inc : Bool) {ty : Nat} (hty : TypeOk ty) (hb : 2 * d + 4 ≤ b) :
    Typed insn T b (d + 1) (incCode inc ty) := by
  have hop := isBinary_inc inc
  refine Typed.append
    (typed_const hop.1 _ (by omega)) (k := d + 1) (by simp [after_binary hop.1])
    (.cons ?_ (.si (isSize_word (width_isWidth hty)).1 (by omega)) .nil)
  omega

theorem typed_lvalue {e : Exp} (h : Typed insn T b d (e.addrCode b))
    (hd : depthAfter d (e.addrCode b) = d) (hpos : 2 * d + 2 ≤ b + size (e.addrCode b))
    (hrest : Typed insn T (b + size (e.addrCode b) + 3) (d + 1) js) (hty : TypeOk e.type) :
    Typed insn T b d (e.addrCode b ++ ins .psh :: insArg .li (word (width e.type)) :: js) := by
  refine h.append hd (.cons (by omega) .psh (.cons ?_ (.li (isSize_word (width_isWidth hty)).1) ?_))
  · simp
    omega
  · simpa using hrest

/-- A branch over the code of the right operand. -/
theorem typed_branch {op : Op} (hop : op.isJump = true) {l r : Exp}
    (hl : Typed insn T b d (l.code b)) (hdl : depthAfter d (l.code b) = d)
    (hr : Typed insn T (b + size (l.code b) + 2) d (r.code (b + size (l.code b) + 2)))
    (hdr : depthAfter d (r.code (b + size (l.code b) + 2)) = d)
    (hp : Placed insn T b d (l.code b ++ insArg op (codePtr (b + size (l.code b) + 2 +
      size (r.code (b + size (l.code b) + 2)))) :: r.code (b + size (l.code b) + 2))) :
    Typed insn T b d (l.code b ++ insArg op (codePtr (b + size (l.code b) + 2 +
      size (r.code (b + size (l.code b) + 2)))) :: r.code (b + size (l.code b) + 2)) := by
  have hroom := hp.room
  have hstack := hp.stack
  simp only [size_append, size_cons, words_insArg, List.length_cons, List.length_nil] at hroom
  refine hl.append hdl (.cons (by omega) (.jump hop ?_) ?_)
  · rw [codeIndex_codePtr (target_lt (by omega))]
    have hlast := hp.last (by simp [hdl, hdr, after_jump hop])
    simpa [Nat.add_assoc] using hlast
  · rw [after_jump hop]
    exact hr

/-- The code of `e` fits wherever it is placed. -/
def TypesCode (insn : List Long) (T : Nat → Nat → Prop) (e : Exp) : Prop :=
  ∀ b d, Placed insn T b d (e.code b) → Typed insn T b d (e.code b)

/-- So does the code of its address. -/
def TypesAddr (insn : List Long) (T : Nat → Nat → Prop) (e : Exp) : Prop :=
  ∀ b d, Placed insn T b d (e.addrCode b) → Typed insn T b d (e.addrCode b)

def TypesArgs (insn : List Long) (T : Nat → Nat → Prop) (as : Args) : Prop :=
  ∀ b d, Placed insn T b d (as.code b) → Typed insn T b d (as.code b)

section Operators
variable {e l r : Exp}

theorem typesCode_var {s : Symbol} (hcls : s.cls = .glo) (hty : s.type < ptr) :
    TypesCode insn T (.var s) := by
  intro b d hp
  have hstack := hp.stack
  have hty := typeOk_var hcls hty
  have hnum : ¬ s.cls = .num := by
    rw [hcls]
    nofun
  rw [Exp.type, if_neg hnum] at hty
  rw [code_var hcls]
  refine .cons hstack (.imm _) ?_
  split
  · exact .nil
  · rename_i harr
    rw [if_neg harr] at hty
    rw [after_imm]
    exact .cons (by simp; omega) (.li (isSize_word (width_isWidth hty)).1) .nil

theorem TypesArgs.call {as : Args} (ht : TypesArgs insn T as) {s : Symbol} (hlib : s ∈ library)
    (h : as.Declared) (hc : as.Checked) : TypesCode insn T (.call s as) := by
  intro b d hp
  have hstack := hp.stack
  have hroom := hp.room
  have hcount := count_le_size as b hc
  obtain ⟨op, hop, hs⟩ := library_op hlib
  rw [code_call (cls_library hlib), hs] at hp hroom ⊢
  rw [size_append] at hroom
  have hnat := @toNat_small as.count (by omega)
  have hda := depth_args as b d h hc (by omega)
  have hcode := hp.code
  refine (ht b d hp.left).append hda (.cons (by omega) ?_ ?_)
  · refine Fits.call hop (Nat.le_add_left _ d) ⟨as, b, hp.code.left, rfl, rfl⟩ ?_
    intro h0
    rw [if_pos h0] at hcode
    exact ⟨hcode.right.tail.op, hcode.right.tail.arg⟩
  · rw [after_bare hop]
    split
    · refine .cons (by omega) (.adj (by omega) ?_) .nil
      intro p hpc
      have hpb : b + size (as.code b) = p := Nat.succ.inj hpc
      exact ⟨as, b, hp.code.left, hpb, hnat.symm⟩
    · exact .nil

theorem TypesCode.deref (ht : TypesCode insn T e) (h : e.Declared) (hc : e.Checked)
    (hptr : ptr ≤ e.type) : TypesCode insn T (.deref e) := by
  intro b d hp
  have hty := (typeOk_of_declared e h hc).sub hptr
  have hstack := hp.stack
  have hroom := hp.room
  simp only [Exp.code, size_append] at hp hroom ⊢
  exact (ht b d hp.left).append (depth_code e b d h hc (by omega))
    (.cons (by omega) (.li (isSize_word (width_isWidth hty)).1) .nil)

theorem TypesCode.un (ht : TypesCode insn T e) (h : e.Declared) (hc : e.Checked) (op : UnOp) :
    TypesCode insn T (.un op e) := by
  intro b d hp
  have hstack := hp.stack
  have hroom := hp.room
  have hpos := size_code_pos e b hc
  cases op with
  | plus => exact ht b d hp
  | minus =>
    simp only [Exp.code, size_append, size_cons] at hp hroom ⊢
    have hp₁ := (hp.tail (k := d) (by simp) (by omega)).tail (k := d + 1) (by simp) (by simp; omega)
    refine .cons hstack (.imm _) (.cons ?_ .psh ?_)
    · simp
      omega
    · simp only [after_imm, after_psh]
      refine (ht (b + 3) (d + 1) hp₁.left).append
        (depth_code e (b + 3) (d + 1) h hc (by omega)) (.cons (by omega) (.binary rfl (by omega)) .nil)
  | not =>
    simp only [Exp.code, size_append] at hp hroom ⊢
    exact (ht b d hp.left).append (depth_code e b d h hc (by omega)) (typed_const rfl _ (by omega))
  | compl =>
    simp only [Exp.code, size_append] at hp hroom ⊢
    exact (ht b d hp.left).append (depth_code e b d h hc (by omega)) (typed_const rfl _ (by omega))

theorem TypesCode.index {i : Exp} (he : TypesCode insn T e) (hi : TypesCode insn T i)
    (h : (Exp.index e i).Declared) (hc : (Exp.index e i).Checked) :
    TypesAddr insn T (.index e i) := by
  intro b d hp
  have hstack := hp.stack
  have hroom := hp.room
  have hpos := size_code_pos e b hc.1
  have hpos' := size_code_pos i (b + size (e.code b) + 1) hc.2.1
  simp only [Exp.addrCode, size_append, size_cons] at hp hroom ⊢
  have hde := depth_code e b d h.1 hc.1 (by omega)
  have hdi := depth_code i (b + size (e.code b) + 1) (d + 1) h.2 hc.2.1 (by omega)
  have hp₁ := (hp.right hde (by omega)).tail (k := d + 1) (by simp) (by simp; omega)
  refine (he b d hp.left).append hde (.cons (by omega) .psh ?_)
  rw [after_psh]
  exact (hi _ _ hp₁.left).append hdi (typed_scaled rfl _ (by simp; omega))

/-- An element is loaded from its address. -/
theorem TypesAddr.load {i : Exp} (ht : TypesAddr insn T (.index e i)) (h : (Exp.index e i).Declared)
    (hc : (Exp.index e i).Checked) : TypesCode insn T (.index e i) := by
  intro b d hp
  have hty := (typeOk_of_declared e h.1 hc.1).sub hc.2.2
  have hstack := hp.stack
  have hroom := hp.room
  rw [code_lvalue (.index e i) b rfl] at hp hroom ⊢
  rw [size_append] at hroom
  exact (ht b d hp.left).append (depth_addrCode (.index e i) b d h hc rfl (by omega))
    (.cons (by omega) (.li (isSize_word (width_isWidth hty)).1) .nil)

theorem TypesAddr.post (ht : TypesAddr insn T e) (h : e.Declared) (hc : e.Checked)
    (hl : e.isLvalue = true) (inc : Bool) : TypesCode insn T (.post inc e) := by
  intro b d hp
  have hty := typeOk_of_declared e h hc
  have hstack := hp.stack
  have hroom := hp.room
  have hpos := size_addrCode_pos e b hc hl
  simp only [Exp.code, size_append, size_cons] at hp hroom ⊢
  refine typed_lvalue (ht b d hp.left) (depth_addrCode e b d h hc hl (by omega)) (by omega) ?_ hty
  exact (typed_incCode inc hty (by omega)).append (depth_incCode inc e.type)
    (typed_const (isBinary_inc inc).2 _ (by omega))

theorem TypesAddr.pre (ht : TypesAddr insn T e) (h : e.Declared) (hc : e.Checked)
    (hl : e.isLvalue = true) (inc : Bool) : TypesCode insn T (.pre inc e) := by
  intro b d hp
  have hty := typeOk_of_declared e h hc
  have hstack := hp.stack
  have hroom := hp.room
  have hpos := size_addrCode_pos e b hc hl
  simp only [Exp.code, size_append, size_cons] at hp hroom ⊢
  exact typed_lvalue (ht b d hp.left) (depth_addrCode e b d h hc hl (by omega)) (by omega)
    (typed_incCode inc hty (by omega)) hty

theorem TypesCode.bin (hl : TypesCode insn T l) (hr : TypesCode insn T r) (op : BinOp)
    (h : l.Declared ∧ r.Declared) (hc : l.Checked ∧ r.Checked) :
    TypesCode insn T (.bin op l r) := by
  intro b d hp
  have hstack := hp.stack
  have hroom := hp.room
  have hpos := size_code_pos l b hc.1
  have hpos' := size_code_pos r (b + size (l.code b) + 1) hc.2
  simp only [Exp.code, size_append, size_cons] at hp hroom ⊢
  have hdl := depth_code l b d h.1 hc.1 (by omega)
  have hdr := depth_code r (b + size (l.code b) + 1) (d + 1) h.2 hc.2 (by omega)
  have hp₁ := (hp.right hdl (by omega)).tail (k := d + 1) (by simp) (by simp; omega)
  refine (hl b d hp.left).append hdl (.cons (by omega) .psh ?_)
  rw [after_psh]
  exact (hr _ _ hp₁.left).append hdr (typed_binCode op _ _ (by simp; omega))

/-- The code of `&&` and `||`. -/
theorem TypesCode.branch {op : Op} (hop : op.isJump = true) (hl : TypesCode insn T l)
    (hr : TypesCode insn T r) (h : l.Declared ∧ r.Declared) (hc : l.Checked ∧ r.Checked) (b d : Nat)
    (hp : Placed insn T b d (l.code b ++ insArg op (codePtr (b + size (l.code b) + 2 +
      size (r.code (b + size (l.code b) + 2)))) :: r.code (b + size (l.code b) + 2))) :
    Typed insn T b d (l.code b ++ insArg op (codePtr (b + size (l.code b) + 2 +
      size (r.code (b + size (l.code b) + 2)))) :: r.code (b + size (l.code b) + 2)) := by
  have hstack := hp.stack
  have hroom := hp.room
  simp only [size_append, size_cons] at hroom
  have hdl := depth_code l b d h.1 hc.1 (by omega)
  have hdr := depth_code r (b + size (l.code b) + 2) d h.2 hc.2 (by omega)
  have hp₁ := (hp.right hdl (by omega)).tail (after_jump hop _) (by omega)
  exact typed_branch hop (hl b d hp.left) hdl (hr _ d hp₁) hdr hp

theorem TypesCode.cond {c t f : Exp} (hc : TypesCode insn T c) (ht : TypesCode insn T t)
    (hf : TypesCode insn T f) (h : (Exp.cond c t f).Declared) (hk : (Exp.cond c t f).Checked) :
    TypesCode insn T (.cond c t f) := by
  intro b d hp
  have hstack := hp.stack
  have hroom := hp.room
  simp only [Exp.code] at hp hroom ⊢
  obtain ⟨tb, htb⟩ : ∃ tb, b + size (c.code b) + 2 = tb := ⟨_, rfl⟩
  rw [htb] at hp hroom ⊢
  obtain ⟨fb, hfb⟩ : ∃ fb, tb + size (t.code tb) + 2 = fb := ⟨_, rfl⟩
  rw [hfb] at hp hroom ⊢
  simp only [size_append, size_cons, words_insArg, List.length_cons, List.length_nil] at hroom
  have hdc := depth_code c b d h.1 hk.1 (by omega)
  have hdt := depth_code t tb d h.2.1 hk.2.1 (by omega)
  have hdf := depth_code f fb d h.2.2 hk.2.2 (by omega)
  have hp₁ : Placed insn T tb d _ :=
    htb ▸ (hp.right hdc (by omega)).tail (after_jump rfl _) (by omega)
  have hp₂ : Placed insn T fb d (f.code fb) :=
    hfb ▸ (hp₁.right hdt (by omega)).tail (after_jump rfl _) (by omega)
  have helse : T fb d := hp₂.marks [] _ rfl
  refine (hc b d hp.left).append hdc (.cons (by omega) (.jump rfl ?_) ?_)
  · rw [codeIndex_codePtr (target_lt (by omega))]
    exact helse
  rw [after_jump rfl]
  refine htb ▸ (ht tb d hp₁.left).append hdt (.cons (by omega) (.jump rfl ?_) ?_)
  · rw [codeIndex_codePtr (target_lt (by omega))]
    exact hp₂.last hdf
  · rw [after_jump rfl]
    exact hfb ▸ hf fb d hp₂

theorem TypesAddr.assign (hl : TypesAddr insn T l) (hr : TypesCode insn T r)
    (h : (Exp.assign l r).Declared) (hc : (Exp.assign l r).Checked) :
    TypesCode insn T (.assign l r) := by
  intro b d hp
  have hty := typeOk_of_declared l h.1 hc.1
  have hstack := hp.stack
  have hroom := hp.room
  have hpos := size_addrCode_pos l b hc.1 hc.2.2
  simp only [Exp.code, size_append, size_cons] at hp hroom ⊢
  have hdl := depth_addrCode l b d h.1 hc.1 hc.2.2 (by omega)
  have hdr := depth_code r (b + size (l.addrCode b) + 1) (d + 1) h.2 hc.2.1 (by omega)
  have hp₁ := (hp.right hdl (by omega)).tail (k := d + 1) (by simp) (by simp; omega)
  refine (hl b d hp.left).append hdl (.cons (by omega) .psh ?_)
  rw [after_psh]
  exact (hr _ _ hp₁.left).append hdr
    (.cons (by simp; omega) (.si (isSize_word (width_isWidth hty)).1 (by omega)) .nil)

theorem TypesCode.cons {as : Args} (he : TypesCode insn T e) (hs : TypesArgs insn T as)
    (h : e.Declared) (hc : e.Checked) (comma : Bool) : TypesArgs insn T (.cons e comma as) := by
  intro b d hp
  have hstack := hp.stack
  have hroom := hp.room
  have hpos := size_code_pos e b hc
  simp only [Args.code, size_append, size_cons] at hp hroom ⊢
  have hde := depth_code e b d h hc (by omega)
  have hp₁ := (hp.right hde (by omega)).tail (k := d + 1) (by simp) (by simp; omega)
  refine (he b d hp.left).append hde (.cons (by omega) .psh ?_)
  rw [after_psh]
  exact hs _ _ hp₁

end Operators

mutual

/-- The code of every accepted expression fits wherever it is placed. -/
theorem typed_code : ∀ e : Exp, e.Declared → e.Checked → TypesCode insn T e
  | .num _, _, _ | .negNum _, _, _ | .str .., _, _ | .sizeof .., _, _ =>
    fun _ _ hp => .cons hp.stack (.imm _) .nil
  | .var _, h, _ => typesCode_var h.1 h.2
  | .call _ as, h, hc => (typed_args as h.2 hc.2).call h.1 h.2 hc.2
  | .paren e, h, hc => typed_code e h hc
  | .cast _ _ e, h, hc => typed_code e h.2 hc
  | .deref e, h, hc => (typed_code e h hc.1).deref h hc.1 hc.2
  | .addr e, h, hc => typed_addrCode e h hc.1 hc.2
  | .un op e, h, hc => (typed_code e h hc).un h hc op
  | .index e i, h, hc =>
    ((typed_code e h.1 hc.1).index (typed_code i h.2 hc.2.1) h hc).load h hc
  | .post inc e, h, hc => (typed_addrCode e h hc.1 hc.2).post h hc.1 hc.2 inc
  | .pre inc e, h, hc => (typed_addrCode e h hc.1 hc.2).pre h hc.1 hc.2 inc
  | .bin op l r, h, hc => (typed_code l h.1 hc.1).bin (typed_code r h.2 hc.2) op h hc
  | .land l r, h, hc => (typed_code l h.1 hc.1).branch rfl (typed_code r h.2 hc.2) h hc
  | .lor l r, h, hc => (typed_code l h.1 hc.1).branch rfl (typed_code r h.2 hc.2) h hc
  | .cond c t f, h, hc => (typed_code c h.1 hc.1).cond (typed_code t h.2.1 hc.2.1)
    (typed_code f h.2.2 hc.2.2) h hc
  | .assign l r, h, hc =>
    (typed_addrCode l h.1 hc.1 hc.2.2).assign (typed_code r h.2 hc.2.1) h hc

theorem typed_addrCode : ∀ e : Exp, e.Declared → e.Checked → e.isLvalue = true →
    TypesAddr insn T e
  | .var _, _, _, _ => fun _ _ hp => .cons hp.stack (.imm _) .nil
  | .deref e, h, hc, _ => typed_code e h hc.1
  | .index e i, h, hc, _ => (typed_code e h.1 hc.1).index (typed_code i h.2 hc.2.1) h hc
  | .paren e, h, hc, hl => typed_addrCode e h hc hl

theorem typed_args : ∀ as : Args, as.Declared → as.Checked → TypesArgs insn T as
  | .nil, _, _ => fun _ _ _ => .nil
  | .cons e comma rest, h, hc =>
    (typed_code e h.1 hc.1).cons (typed_args rest h.2 hc.2) h.1 hc.1 comma

end

end Typed

end PerfProf.Expr
