import PerfProf.ExprLevel

/-! The instructions of an expression whose operators are applied to lvalues: what the emitted
words are once every load has been turned into a push and every branch target patched. -/
namespace PerfProf.Expr

section Instructions

/-- An instruction: its word and the word after it that belongs to it. -/
structure Ins where
  op : Long
  arg : Option Long
deriving DecidableEq

def Ins.words (i : Ins) : List Long := i.op :: i.arg.toList

def ins (op : Op) : Ins := ⟨op.word, none⟩
def insArg (op : Op) (w : Long) : Ins := ⟨op.word, some w⟩

def words (is : List Ins) : List Long := is.flatMap Ins.words

def size (is : List Ins) : Nat := (words is).length

@[simp]
theorem words_nil : words [] = [] := rfl

@[simp]
theorem words_cons (i : Ins) (is : List Ins) : words (i :: is) = i.words ++ words is :=
  List.flatMap_cons

@[simp]
theorem words_append (is js : List Ins) : words (is ++ js) = words is ++ words js :=
  List.flatMap_append

@[simp]
theorem words_ins (op : Op) : (ins op).words = [op.word] := rfl

@[simp]
theorem words_bare (w : Long) : (⟨w, none⟩ : Ins).words = [w] := rfl

@[simp]
theorem words_insArg (op : Op) (w : Long) : (insArg op w).words = [op.word, w] := rfl

@[simp]
theorem size_nil : size [] = 0 := rfl

@[simp]
theorem size_append (is js : List Ins) : size (is ++ js) = size is + size js := by
  simp [size]

@[simp]
theorem size_cons (i : Ins) (is : List Ins) : size (i :: is) = i.words.length + size is := by
  simp [size]

@[simp]
theorem length_words (is : List Ins) : (words is).length = size is := rfl

end Instructions

section Code

def scaleCode (t : Nat) : List Ins :=
  if ptr < t then [ins .psh, insArg .imm (word (stride t)), ins .mul] else []

def incCode (inc : Bool) (ty : Nat) : List Ins :=
  [ins .psh, insArg .imm (word (incStep ty)), ins (if inc then .add else .sub),
    insArg .si (word (width ty))]

def undoCode (inc : Bool) (ty : Nat) : List Ins :=
  [ins .psh, insArg .imm (word (incStep ty)), ins (if inc then .sub else .add)]

def BinOp.code (op : BinOp) (tl tr : Nat) : List Ins :=
  match op with
  | .add => scaleCode tl ++ [ins .add]
  | .sub => if ptr < tl ∧ tl = tr then
      [ins .sub, ins .psh, insArg .imm (word (stride tl)), ins .div]
    else scaleCode tl ++ [ins .sub]
  | op => [ins op.op]

/-- The instruction for the address of a variable, or for the value of a name of class `num`. -/
def Symbol.base (s : Symbol) : Ins :=
  if s.cls = .loc then insArg .lea (0 - s.value) else insArg .imm s.value

/-- What `base` gives is the value. -/
def Symbol.unloaded (s : Symbol) : Bool := s.cls == .num || s.isArray

def Symbol.callIns (s : Symbol) : Ins :=
  if s.cls = .func then insArg .jsr s.value else ⟨s.value, none⟩

theorem words_base (s : Symbol) : s.base.words =
    [(if s.cls = .loc then Op.lea else Op.imm).word, if s.cls = .loc then 0 - s.value else s.value] := by
  unfold Symbol.base
  split <;> rfl

theorem words_callIns (s : Symbol) :
    s.callIns.words = if s.cls = .func then [Op.jsr.word, s.value] else [s.value] := by
  unfold Symbol.callIns
  split <;> rfl

mutual

/-- The instructions of the value of an expression, from index `b` on. -/
@[simp]
def Exp.code : Exp → Nat → List Ins
  | .num v, _ => [insArg .imm v]
  | .negNum v, _ => [insArg .imm (-v)]
  | .str v _, _ => [insArg .imm v]
  | .var s, _ => s.base :: if s.unloaded then [] else [insArg .li (word (width s.type))]
  | .sizeof type n, _ => [insArg .imm (word (width (type + n * ptr)))]
  | .call s as, b =>
    as.code b ++ s.callIns :: if as.count ≠ 0 then [insArg .adj (word as.count)] else []
  | .paren e, b => e.code b
  | .cast _ _ e, b => e.code b
  | .index e i, b =>
    e.code b ++ ins .psh :: (i.code (b + size (e.code b) + 1) ++ (scaleCode e.type ++
      [ins .add, insArg .li (word (width (e.type - ptr)))]))
  | .deref e, b => e.code b ++ [insArg .li (word (width (e.type - ptr)))]
  | .post inc e, b =>
    e.addrCode b ++ ins .psh :: insArg .li (word (width e.type)) ::
      (incCode inc e.type ++ undoCode inc e.type)
  | .pre inc e, b =>
    e.addrCode b ++ ins .psh :: insArg .li (word (width e.type)) :: incCode inc e.type
  | .addr e, b => e.addrCode b
  | .un op e, b => match op with
    | .plus => e.code b
    | .minus => insArg .imm (-1) :: ins .psh :: (e.code (b + 3) ++ [ins .mul])
    | .not => e.code b ++ [ins .psh, insArg .imm 0, ins .eq]
    | .compl => e.code b ++ [ins .psh, insArg .imm (-1), ins .xor]
  | .bin op l r, b =>
    l.code b ++ ins .psh :: (r.code (b + size (l.code b) + 1) ++ op.code l.type r.type)
  | .land l r, b =>
    let rc := r.code (b + size (l.code b) + 2)
    l.code b ++ insArg .bz (codePtr (b + size (l.code b) + 2 + size rc)) :: rc
  | .lor l r, b =>
    let rc := r.code (b + size (l.code b) + 2)
    l.code b ++ insArg .bnz (codePtr (b + size (l.code b) + 2 + size rc)) :: rc
  | .cond c t f, b =>
    let tc := t.code (b + size (c.code b) + 2)
    let fb := b + size (c.code b) + 2 + size tc + 2
    c.code b ++ insArg .bz (codePtr fb) ::
      (tc ++ insArg .jmp (codePtr (fb + size (f.code fb))) :: f.code fb)
  | .assign l r, b =>
    l.addrCode b ++ ins .psh :: (r.code (b + size (l.addrCode b) + 1) ++
      [insArg .si (word (width l.type))])

/-- The instructions of the address of an lvalue. -/
@[simp]
def Exp.addrCode : Exp → Nat → List Ins
  | .var s, _ => [insArg .imm s.value]
  | .deref e, b => e.code b
  | .index e i, b =>
    e.code b ++ ins .psh :: (i.code (b + size (e.code b) + 1) ++ (scaleCode e.type ++ [ins .add]))
  | .paren e, b => e.addrCode b
  | _, _ => []

/-- Each argument is pushed. -/
@[simp]
def Args.code : Args → Nat → List Ins
  | .nil, _ => []
  | .cons e _ rest, b => e.code b ++ ins .psh :: rest.code (b + size (e.code b) + 1)

end

mutual

/-- The checks of `expr`, with lvalues where it looks for a load. -/
def Exp.Checked : Exp → Prop
  | .num _ | .negNum _ | .str .. | .sizeof .. => True
  | .var s => s.cls = .num ∨ s.cls = .loc ∨ s.cls = .glo
  | .call s as => (s.cls = .sys ∨ s.cls = .func) ∧ as.Checked
  | .paren e | .un _ e | .cast _ _ e => e.Checked
  | .index e i => e.Checked ∧ i.Checked ∧ ptr ≤ e.type
  | .deref e => e.Checked ∧ ptr ≤ e.type
  | .post _ e | .pre _ e | .addr e => e.Checked ∧ e.isLvalue = true
  | .bin _ l r | .land l r | .lor l r => l.Checked ∧ r.Checked
  | .cond c t f => c.Checked ∧ t.Checked ∧ f.Checked
  | .assign l r => l.Checked ∧ r.Checked ∧ l.isLvalue = true

def Args.Checked : Args → Prop
  | .nil => True
  | .cons e _ rest => e.Checked ∧ rest.Checked

end

/-- The code of a declared variable. -/
theorem code_var {s : Symbol} (h : s.cls = .glo) (b : Nat) : (Exp.var s).code b =
    insArg .imm s.value :: if s.isArray then [] else [insArg .li (word (width s.type))] := by
  simp [Exp.code, Symbol.base, Symbol.unloaded, h]

/-- The code of a call of a library function. -/
theorem code_call {s : Symbol} (h : s.cls = .sys) (as : Args) (b : Nat) : (Exp.call s as).code b =
    as.code b ++ ⟨s.value, none⟩ :: if as.count ≠ 0 then [insArg .adj (word as.count)] else [] := by
  simp [Exp.code, Symbol.callIns, h]

/-- The value of an lvalue is loaded from its address. -/
theorem code_lvalue : ∀ (e : Exp) (b : Nat), e.isLvalue = true →
    e.code b = e.addrCode b ++ [insArg .li (word (width e.type))]
  | .var s, b, h => by
    obtain ⟨⟨-, hglo⟩, harr⟩ : (s.set = true ∧ s.cls = .glo) ∧ s.isArray = false := by
      simpa [Exp.isLvalue] using h
    simp [Exp.code, Exp.addrCode, Exp.type, Symbol.base, Symbol.unloaded, hglo, harr]
  | .deref e, b, _ => by simp [Exp.code, Exp.addrCode, Exp.type]
  | .index e i, b, _ => by simp [Exp.code, Exp.addrCode, Exp.type]
  | .paren e, b, h => code_lvalue e b h

theorem words_scaleCode (t : Nat) : words (scaleCode t) = scaleWords t := by
  unfold scaleCode scaleWords
  split <;> rfl

theorem words_incCode (inc : Bool) (ty : Nat) : words (incCode inc ty) = incWords inc ty := by
  cases inc <;> rfl

theorem words_undoCode (inc : Bool) (ty : Nat) : words (undoCode inc ty) = undoWords inc ty := by
  cases inc <;> rfl

theorem words_binCode (op : BinOp) (tl tr : Nat) : words (op.code tl tr) = op.words tl tr := by
  cases op with
  | add => simp [BinOp.code, BinOp.words, words_scaleCode]
  | sub =>
    simp only [BinOp.code, BinOp.words]
    split
    · rfl
    · simp [words_scaleCode]
  | _ => rfl

section Generate

attribute [local simp] Exp.gen Exp.type Exp.isLvalue

mutual

/-- The words above the code of an expression, from those above the place where it starts: what was
there, without what it wrote over, and the loads that `&` and `=` took back. -/
@[simp]
def Exp.above : Exp → List Long → List Long
  | .num _, a | .negNum _, a | .str .., a | .sizeof .., a => a.drop 2
  | .var s, a => a.drop (if s.unloaded then 2 else 4)
  | .call s as, a =>
    (as.above a).drop (s.callIns.words.length + if as.count ≠ 0 then 2 else 0)
  | .paren e, a | .cast _ _ e, a => e.above a
  | .index e i, a => (i.above ((e.above a).drop 1)).drop (size (scaleCode e.type) + 3)
  | .deref e, a => (e.above a).drop 2
  | .post _ e, a => (e.above a).drop 11
  | .pre _ e, a => (e.above a).drop 7
  | .addr e, a => Op.li.word :: word (width e.type) :: e.above a
  | .un op e, a => match op with
    | .plus => e.above a
    | .minus => (e.above (a.drop 3)).drop 1
    | .not | .compl => (e.above a).drop 4
  | .bin op l r, a => (r.above ((l.above a).drop 1)).drop (size (op.code l.type r.type))
  | .land l r, a | .lor l r, a => r.above ((l.above a).drop 2)
  | .cond c t f, a => f.above ((t.above ((c.above a).drop 2)).drop 2)
  | .assign l r, a => (r.above (word (width l.type) :: l.above a)).drop 2

@[simp]
def Args.above : Args → List Long → List Long
  | .nil, a => a
  | .cons e _ rest, a => rest.above ((e.above a).drop 1)

end

/-- What the second pass makes of the buffer for a checked tree. -/
def Generates (e : Exp) : Prop :=
  ∀ c : Buf, e.gen c = some ⟨c.code ++ words (e.code c.code.length), e.above c.above⟩

theorem emit_mk (ws a vs : List Long) : Buf.emit ⟨ws, a⟩ vs = ⟨ws ++ vs, a.drop vs.length⟩ := rfl

theorem reserve_mk (ws a : List Long) (op : Op) :
    Buf.reserve ⟨ws, a⟩ op = ⟨ws ++ [op.word, a.getD 1 0], a.drop 2⟩ := rfl

/-- The two words at the end are left above it. -/
theorem dropLi_mk (ws a : List Long) (x y : Long) :
    Buf.dropLi ⟨ws ++ [x] ++ [y], a⟩ = ⟨ws, x :: y :: a⟩ := by
  have hlen : (ws ++ [x] ++ [y]).length - 2 = ws.length := by
    simp
  rw [Buf.dropLi, hlen, List.dropLast_concat, List.dropLast_concat, List.append_assoc,
    List.drop_left]
  rfl

/-- The words of an lvalue end in the load that `expr` looks for. -/
theorem Generates.lvalue {e : Exp} (h : Generates e) (hl : e.isLvalue = true) (c : Buf) :
    ∃ c', e.gen c = some c' ∧ c'.endsLi = true ∧
      c'.dropLi = ⟨c.code ++ words (e.addrCode c.code.length),
        Op.li.word :: word (width e.type) :: e.above c.above⟩ ∧
      c'.pushLi = ⟨c.code ++ (words (e.addrCode c.code.length) ++
        [Op.psh.word, Op.li.word, word (width e.type)]), (e.above c.above).drop 1⟩ := by
  have hwords : c.code ++ words (e.code c.code.length) =
      c.code ++ words (e.addrCode c.code.length) ++ [Op.li.word] ++ [word (width e.type)] := by
    rw [code_lvalue e _ hl]
    simp
  have hdrop : Buf.dropLi ⟨c.code ++ words (e.code c.code.length), e.above c.above⟩ =
      ⟨c.code ++ words (e.addrCode c.code.length),
        Op.li.word :: word (width e.type) :: e.above c.above⟩ := by
    rw [hwords, dropLi_mk]
  refine ⟨_, h c, ?_, hdrop, ?_⟩
  · rw [hwords, Buf.endsLi, List.dropLast_concat, List.getLast?_concat]
    exact beq_self_eq_true _
  · rw [Buf.pushLi, hdrop, hwords, emit_mk]
    simp

theorem Generates.branch {e : Exp} (h : Generates e) (op : Op) (c : Buf) :
    branch op e.gen c = some ⟨c.code ++ [op.word,
      codePtr (c.code.length + 2 + size (e.code (c.code.length + 2)))] ++
        words (e.code (c.code.length + 2)), e.above (c.above.drop 2)⟩ := by
  have hset : ∀ (ws : List Long) (v w : Long),
      (c.code ++ [op.word, v] ++ ws).set (c.code.length + 1) w = c.code ++ [op.word, w] ++ ws := by
    intro ws v w
    simp
  have hlen : ∀ v : Long, (c.code ++ [op.word, v]).length = c.code.length + 2 := by
    intro v
    simp
  rw [PerfProf.Expr.branch, h, Option.map_some, Buf.reserve, Buf.emit]
  dsimp only
  rw [Buf.patch, hlen, hset, List.length_append, hlen, length_words]
  rfl

theorem Generates.call {as : Args}
    (h : ∀ c : Buf, as.gen c = some ⟨c.code ++ words (as.code c.code.length), as.above c.above⟩)
    {s : Symbol} (hs : s.cls = .sys ∨ s.cls = .func) : Generates (.call s as) := by
  have hcallee : St.callee s = some s.callIns.words := by
    rcases hs with hs | hs <;> simp [St.callee, Symbol.callIns, hs]
  intro c
  simp only [Exp.gen, h, Option.bind_eq_bind, Option.bind_some, hcallee, Option.map_some, emit_mk,
    Exp.code, Exp.above]
  split <;> simp

theorem Generates.index {e i : Exp} (he : Generates e) (hi : Generates i) (hty : ptr ≤ e.type) :
    Generates (.index e i) := by
  intro c
  simp only [Exp.gen, he c, Option.bind_eq_bind, Option.bind_some, hi _, if_pos hty, Exp.code,
    emit_mk, Exp.above]
  simp [words_scaleCode, Nat.add_assoc, ← length_words]

theorem Generates.deref {e : Exp} (he : Generates e) (hty : ptr ≤ e.type) :
    Generates (.deref e) := by
  intro c
  simp only [Exp.gen, he c, Option.bind_eq_bind, Option.bind_some, if_pos hty, Exp.code, emit_mk,
    Exp.above]
  simp

theorem Generates.post {e : Exp} (he : Generates e) (hl : e.isLvalue = true) (inc : Bool) :
    Generates (.post inc e) := by
  intro c
  obtain ⟨c', hgen, hends, -, hpush⟩ := he.lvalue hl c
  simp only [Exp.gen, hgen, Option.bind_eq_bind, Option.bind_some, if_pos hends, hpush, Exp.code,
    emit_mk, Exp.above]
  simp [words_incCode, words_undoCode, incWords, undoWords]

theorem Generates.pre {e : Exp} (he : Generates e) (hl : e.isLvalue = true) (inc : Bool) :
    Generates (.pre inc e) := by
  intro c
  obtain ⟨c', hgen, hends, -, hpush⟩ := he.lvalue hl c
  simp only [Exp.gen, hgen, Option.bind_eq_bind, Option.bind_some, if_pos hends, hpush, Exp.code,
    emit_mk, Exp.above]
  simp [words_incCode, incWords]

theorem Generates.addr {e : Exp} (he : Generates e) (hl : e.isLvalue = true) :
    Generates (.addr e) := by
  intro c
  obtain ⟨c', hgen, hends, hdrop, -⟩ := he.lvalue hl c
  simp only [Exp.gen, hgen, Option.bind_eq_bind, Option.bind_some, if_pos hends, hdrop, Exp.code,
    Exp.above]

theorem Generates.un {e : Exp} (he : Generates e) (op : UnOp) : Generates (.un op e) := by
  intro c
  cases op with
  | plus => exact he c
  | minus =>
    simp only [Exp.gen, he _, Option.map_some, Exp.code, Exp.above, Buf.emit]
    simp
  | not =>
    simp only [Exp.gen, he _, Option.map_some, Exp.code, Exp.above, Buf.emit]
    simp
  | compl =>
    simp only [Exp.gen, he _, Option.map_some, Exp.code, Exp.above, Buf.emit]
    simp

theorem Generates.bin {l r : Exp} (hl : Generates l) (hr : Generates r) (op : BinOp) :
    Generates (.bin op l r) := by
  intro c
  simp only [Exp.gen, hl c, hr _, Option.bind_eq_bind, Option.bind_some, Exp.code, Exp.above,
    emit_mk]
  simp [words_binCode, Nat.add_assoc, ← length_words]

theorem Generates.land {l r : Exp} (hl : Generates l) (hr : Generates r) :
    Generates (.land l r) := by
  intro c
  simp only [Exp.gen, hl c, Option.bind_eq_bind, Option.bind_some, hr.branch, Exp.code, Exp.above]
  simp

theorem Generates.lor {l r : Exp} (hl : Generates l) (hr : Generates r) :
    Generates (.lor l r) := by
  intro c
  simp only [Exp.gen, hl c, Option.bind_eq_bind, Option.bind_some, hr.branch, Exp.code, Exp.above]
  simp

theorem Generates.cond {x t f : Exp} (hx : Generates x) (ht : Generates t) (hf : Generates f) :
    Generates (.cond x t f) := by
  intro c
  obtain ⟨xc, hxc⟩ : ∃ xc, x.code c.code.length = xc := ⟨_, rfl⟩
  obtain ⟨tc, htc⟩ : ∃ tc, t.code (c.code.length + size xc + 2) = tc := ⟨_, rfl⟩
  have hset : ∀ (cs ws : List Long) (v w : Long),
      (cs ++ [Op.bz.word, v] ++ ws).set (cs.length + 1) w = cs ++ [Op.bz.word, w] ++ ws := by
    intro cs ws v w
    simp
  have hlen : ∀ v, (c.code ++ words xc ++ [Op.bz.word, v]).length =
      c.code.length + size xc + 2 := by
    intro v
    simp [Nat.add_assoc]
  have hlen' : ∀ w, (c.code ++ words xc ++ [Op.bz.word, w] ++ words tc).length =
      c.code.length + size xc + 2 + size tc := by
    intro w
    simp [Nat.add_assoc, Nat.add_comm 2]
  simp only [Exp.gen, hx c, hxc, reserve_mk, ht _, hlen, htc, Option.bind_eq_bind,
    Option.bind_some, Buf.patch, hset, hf.branch, hlen', Exp.code, Exp.above]
  simp

theorem Generates.assign {l r : Exp} (hl : Generates l) (hr : Generates r)
    (hlv : l.isLvalue = true) : Generates (.assign l r) := by
  intro c
  obtain ⟨c', hgen, hends, hdrop, -⟩ := hl.lvalue hlv c
  simp only [Exp.gen, hgen, Option.bind_eq_bind, Option.bind_some, if_pos hends, hdrop, hr _,
    Option.map_some, Exp.code, Exp.above, emit_mk]
  simp [Nat.add_assoc]

mutual

theorem generates_of_checked : ∀ e : Exp, e.Checked → Generates e
  | .num v, _ => fun c => rfl
  | .negNum v, _ => fun c => rfl
  | .str v more, _ => fun c => rfl
  | .var s, h => fun c => by
    have hcls : s.cls = .num ∨ s.cls = .loc ∨ s.cls = .glo := h
    rcases hcls with hs | hs | hs <;> cases ha : s.isArray <;>
      simp [Exp.gen, Exp.code, Exp.above, Symbol.base, Symbol.unloaded, St.address, Buf.emit, hs, ha]
  | .sizeof type n, _ => fun c => rfl
  | .call s as, h => Generates.call (generatesArgs_of_checked as h.2) h.1
  | .paren e, h => generates_of_checked e h
  | .cast type n e, h => generates_of_checked e h
  | .index e i, h => (generates_of_checked e h.1).index (generates_of_checked i h.2.1) h.2.2
  | .deref e, h => (generates_of_checked e h.1).deref h.2
  | .post inc e, h => (generates_of_checked e h.1).post h.2 inc
  | .pre inc e, h => (generates_of_checked e h.1).pre h.2 inc
  | .addr e, h => (generates_of_checked e h.1).addr h.2
  | .un op e, h => (generates_of_checked e h).un op
  | .bin op l r, h => (generates_of_checked l h.1).bin (generates_of_checked r h.2) op
  | .land l r, h => (generates_of_checked l h.1).land (generates_of_checked r h.2)
  | .lor l r, h => (generates_of_checked l h.1).lor (generates_of_checked r h.2)
  | .cond c t f, h => (generates_of_checked c h.1).cond (generates_of_checked t h.2.1)
    (generates_of_checked f h.2.2)
  | .assign l r, h => (generates_of_checked l h.1).assign (generates_of_checked r h.2.1) h.2.2

theorem generatesArgs_of_checked : ∀ as : Args, as.Checked →
    ∀ c : Buf, as.gen c = some ⟨c.code ++ words (as.code c.code.length), as.above c.above⟩
  | .nil, _, c => by simp [Args.gen, Args.code, Args.above]
  | .cons e comma rest, h, c => by
    have he := generates_of_checked e h.1
    have hrest := generatesArgs_of_checked rest h.2
    simp only [Args.gen, he c, hrest _, Option.bind_eq_bind, Option.bind_some, Args.code, Args.above,
      emit_mk]
    simp [Nat.add_assoc]

end

end Generate

end Code

end PerfProf.Expr
